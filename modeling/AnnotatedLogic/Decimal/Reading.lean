/-!
# Reading decimals

A decimal numeral reads as the nearest double.

* `ofDigits`: the double nearest to `digits * 10 ^ exponent`, infinite beyond the largest one.
* `read?`: numerals with an optional sign, point and exponent, and the names `inf`, `infinity` and
  `nan` in any case. Nothing else is a numeral, not even one with a blank in front.
-/

namespace AnnotatedLogic.Decimal

/-- The value of a string of digits. -/
def natOfDigits (ds : List Char) : Nat :=
  ds.foldl (fun n c => 10 * n + (c.toNat - '0'.toNat)) 0

/-- The double nearest to `digits * 10 ^ exponent`. The largest double is below `10 ^ 309` and half
of the least positive one is above `10 ^ -325`, so far larger and smaller numbers need no power of
ten. -/
def ofDigits (digits : Nat) (exponent : Int) : Float :=
  let places : Int := (toString digits).length + exponent
  if digits = 0 ∨ places < -330 then 0
  else if 330 < places then 1 / 0
  else Float.ofScientific digits (decide (exponent < 0)) exponent.natAbs

/-- A sign in front of a numeral, and the rest. -/
def splitSign : List Char → Bool × List Char
  | '-' :: cs => (true, cs)
  | '+' :: cs => (false, cs)
  | cs => (false, cs)

/-- An exponent: one digit or more behind an optional sign. -/
def exponent? (cs : List Char) : Option Int :=
  let (negative, ds) := splitSign cs
  if ds.isEmpty || !ds.all Char.isDigit then none
  else some (if negative then -(natOfDigits ds : Int) else natOfDigits ds)

/-- What may follow the digits of a numeral: nothing, or `e` and an exponent. -/
def scale? : List Char → Option Int
  | [] => some 0
  | c :: cs => if c == 'e' || c == 'E' then exponent? cs else none

/-- A numeral without its sign: digits with at most one point among them, at least one digit in
all, and an optional exponent. -/
def unsigned? (cs : List Char) : Option Float :=
  let whole := cs.takeWhile Char.isDigit
  let rest := cs.dropWhile Char.isDigit
  let (fraction, rest) := match rest with
    | '.' :: more => (more.takeWhile Char.isDigit, more.dropWhile Char.isDigit)
    | _ => ([], rest)
  if whole.isEmpty && fraction.isEmpty then none
  else (scale? rest).map fun e => ofDigits (natOfDigits (whole ++ fraction)) (e - fraction.length)

/-- The double that a numeral names. -/
def read? (s : String) : Option Float :=
  let (negative, cs) := splitSign s.toList
  let name := String.ofList (cs.map Char.toLower)
  let size :=
    if name = "inf" ∨ name = "infinity" then some (1 / 0)
    else if name = "nan" then some (0 / 0)
    else unsigned? cs
  size.map fun x => if negative then -x else x

/-- An unsigned integer of 64 bits: digits behind an optional `+`. -/
def readNat? (s : String) : Option Nat :=
  let ds := match s.toList with
    | '+' :: cs => cs
    | cs => cs
  if ds.isEmpty || !ds.all Char.isDigit then none
  else
    let n := natOfDigits ds
    if n < Nat.pow 2 64 then some n else none

end AnnotatedLogic.Decimal
