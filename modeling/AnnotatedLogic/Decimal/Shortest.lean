/-!
# The shortest decimal that reads back

Every decimal close enough to a double rounds to it. Among those, the one with the fewest digits
names the double, and of several the one nearest to its exact value. Two may be equally near; which
of them is taken is up to the format.

* `Magnitude.ofBits`: the exact value of a finite double, `mantissa * 2 ^ exponent`.
* `Neighbourhood`: the reals that round to a double, as fractions over one denominator.
* `shortest`: the first of the grids of 0, 1, 2, … digits with a point in the neighbourhood gives
  the digits. All arithmetic is on natural numbers, so nothing is rounded on the way.
-/

namespace AnnotatedLogic.Decimal

/-- The value `mantissa * 2 ^ exponent` of a finite double without its sign. -/
structure Magnitude where
  mantissa : Nat
  exponent : Int
deriving DecidableEq

/-- Splits the bits of a finite double. The leading bit of the mantissa is stored only by the
exponent field: it is set unless that field is zero. -/
def Magnitude.ofBits (bits : UInt64) : Magnitude :=
  let field : Nat := bits.toNat / Nat.pow 2 52 % Nat.pow 2 11
  let low := bits.toNat % Nat.pow 2 52
  if field = 0 then ⟨low, -1074⟩ else ⟨low + Nat.pow 2 52, (field : Int) - 1075⟩

/-- A number and the reals that round to it, as fractions with denominator `scale`: those strictly
between `low` and `high`, and the two ends as well when `closed`. -/
structure Neighbourhood where
  value : Nat
  low : Nat
  high : Nat
  scale : Nat
  closed : Bool
deriving DecidableEq

/-- The reals that round to a positive double reach half way to the next doubles on both sides. The
spacing below a power of two is half of the spacing above it. A tie goes to an even mantissa, so
the ends belong to a double with one. -/
def Neighbourhood.ofMagnitude (v : Magnitude) : Neighbourhood :=
  let unit := Nat.pow 2 (v.exponent - 2).toNat
  let below := if v.mantissa = Nat.pow 2 52 ∧ -1074 < v.exponent then 1 else 2
  { value := 4 * v.mantissa * unit
    low := (4 * v.mantissa - below) * unit
    high := (4 * v.mantissa + 2) * unit
    scale := Nat.pow 2 (2 - v.exponent).toNat
    closed := v.mantissa % 2 == 0 }

/-- The same numbers counted in units of `10 ^ j`. -/
def Neighbourhood.inUnits (g : Neighbourhood) (j : Int) : Neighbourhood :=
  let up := Nat.pow 10 (-j).toNat
  { g with
    value := g.value * up
    low := g.low * up
    high := g.high * up
    scale := g.scale * Nat.pow 10 j.toNat }

/-- Whether the integer `n` rounds to the number. -/
def Neighbourhood.holds (g : Neighbourhood) (n : Nat) : Bool :=
  if g.closed then decide (g.low ≤ n * g.scale ∧ n * g.scale ≤ g.high)
  else decide (g.low < n * g.scale ∧ n * g.scale < g.high)

/-- Which of two equally near integers is taken. -/
inductive Tie where
  | up
  | toEven
deriving DecidableEq

/-- The integer taken where the number lies half way between `n` and `n + 1`. -/
def Tie.pick (n : Nat) : Tie → Nat
  | up => n + 1
  | toEven => n + n % 2

theorem Tie.pick_eq_or_eq (tie : Tie) (n : Nat) : tie.pick n = n ∨ tie.pick n = n + 1 := by
  cases tie with
  | up => exact .inr rfl
  | toEven =>
    rw [Tie.pick]
    omega

theorem Tie.pick_toEven_mod_two (n : Nat) : Tie.toEven.pick n % 2 = 0 := by
  rw [Tie.pick]
  omega

/-- The integer nearest to the number among those that round to it. Only the two integers around the
number can be nearest. -/
def Neighbourhood.nearest? (g : Neighbourhood) (tie : Tie) : Option Nat :=
  let n := g.value / g.scale
  let past := g.value % g.scale
  match g.holds n, g.holds (n + 1) with
  | true, true =>
    if 2 * past < g.scale then some n
    else if g.scale < 2 * past then some (n + 1)
    else some (tie.pick n)
  | true, false => some n
  | false, true => some (n + 1)
  | false, false => none

/-- The least `k` from `start` on, within `fuel` steps, with `scale ≤ value * 10 ^ k`. -/
def firstPower (value scale : Nat) : Nat → Nat → Nat
  | 0, start => start
  | fuel + 1, start =>
    if scale ≤ value * Nat.pow 10 start then start else firstPower value scale fuel (start + 1)

/-- The power of ten of the leading digit. No double is below `10 ^ -324`. -/
def Neighbourhood.leading (g : Neighbourhood) : Int :=
  if g.scale ≤ g.value then ((toString (g.value / g.scale)).length : Int) - 1
  else -(firstPower g.value g.scale 324 1 : Int)

/-- A positive decimal: `digits * 10 ^ exponent`. -/
structure Digits where
  digits : Nat
  exponent : Int
deriving DecidableEq

/-- Tries the grids `10 ^ j`, `10 ^ (j - 1)`, … for a point that rounds to the number. -/
def Neighbourhood.search (g : Neighbourhood) (tie : Tie) : Nat → Int → Digits
  | 0, j => ⟨(g.inUnits j).value / (g.inUnits j).scale, j⟩
  | fuel + 1, j =>
    match (g.inUnits j).nearest? tie with
    | some n => ⟨n, j⟩
    | none => g.search tie fuel (j - 1)

/-- The shortest decimal that reads back as the double with these bits, which is finite and not
zero. The search starts one place above the leading digit, because a number just below a power of
ten may round up to it, and 17 digits always suffice. -/
def shortest (tie : Tie) (bits : UInt64) : Digits :=
  let g := Neighbourhood.ofMagnitude (Magnitude.ofBits bits)
  g.search tie 18 (g.leading + 1)

end AnnotatedLogic.Decimal
