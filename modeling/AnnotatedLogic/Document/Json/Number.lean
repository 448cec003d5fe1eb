import AnnotatedLogic.Document.Basic
import AnnotatedLogic.Decimal.Reading
/-!
# Numerals of JSON

A numeral is a sign, digits, a fraction and an exponent. Without a fraction and an exponent it is a
whole number as long as 64 bits hold it. Any other numeral is a double: its leading digits, as many
as 64 bits hold, are scaled by a power of ten in one multiplication or division. That is exact to
the last bit for the numerals that are written for doubles of ordinary size.

* `Numeral.value`: the number; a numeral beyond the largest double stands for none.
-/

namespace AnnotatedLogic.Document.Json

/-- A numeral without its value. -/
structure Numeral where
  negative : Bool
  whole : List Char
  fraction : List Char
  exponent : Option Int
deriving DecidableEq

/-- A power of ten as a double. -/
def powerOfTen (k : Nat) : Float := Float.ofScientific 1 false k

/-- Takes digits into a significand as long as 64 bits hold it; the digits left are returned. -/
def significand (n : Nat) : List Char → Nat × List Char
  | [] => (n, [])
  | c :: cs =>
    let m := 10 * n + (c.toNat - '0'.toNat)
    if m < Nat.pow 2 64 then significand m cs else (n, c :: cs)

/-- Divides by powers of ten until `10 ^ exponent` is a double, within `fuel` steps. Two steps make
zero of any significand. -/
def scaleDown : Nat → Float → Int → Float
  | 0, x, _ => x
  | fuel + 1, x, e =>
    if -308 ≤ e then x / powerOfTen e.natAbs
    else if x == 0 then x
    else scaleDown fuel (x / powerOfTen 308) (e + 308)

/-- A significand times a power of ten, unless it is beyond the largest double. -/
def scaled? (n : Nat) (exponent : Int) : Option Float :=
  let x := Float.ofNat n
  if exponent < 0 then some (scaleDown 4 x exponent)
  else if exponent ≤ 308 then
    let y := x * powerOfTen exponent.natAbs
    if y.isInf then none else some y
  else if n = 0 then some x
  else none

namespace Numeral

/-- The double that a numeral names. Digits that the significand cannot take are dropped; those of
the whole part still count as places. -/
def toFloat? (n : Numeral) : Option Float :=
  let (m, dropped) := significand 0 n.whole
  let (m, left) := significand m n.fraction
  let places : Int := dropped.length - (n.fraction.length - left.length : Nat)
  (scaled? m (places + n.exponent.getD 0)).map fun x => if n.negative then -x else x

/-- The whole number that a numeral names. Zero with a sign is no whole number, because the sign
would be lost. -/
def toInt? (n : Numeral) : Option Int :=
  if n.fraction.isEmpty && n.exponent.isNone then
    let m := Decimal.natOfDigits n.whole
    if n.negative then
      if 0 < m ∧ m ≤ Nat.pow 2 63 then some (-m) else none
    else if m < Nat.pow 2 64 then some m
    else none
  else none

/-- The number that a numeral names. -/
def value (n : Numeral) : Document :=
  match n.toInt? with
  | some m => .integer m
  | none =>
    match n.toFloat? with
    | some x => .real x
    | none => .unreadable

end Numeral

/-- Digits at the front, and what follows them. -/
def spanDigits (cs : List Char) : List Char × List Char :=
  (cs.takeWhile Char.isDigit, cs.dropWhile Char.isDigit)

/-- The fraction at the front, if there is a point: it has a digit at least. -/
def scanFraction : List Char → Option (List Char × List Char)
  | '.' :: cs =>
    match spanDigits cs with
    | ([], _) => none
    | (ds, rest) => some (ds, rest)
  | cs => some ([], cs)

/-- The digits of an exponent behind its sign. -/
def scanExponentDigits (negative : Bool) (cs : List Char) : Option (Option Int × List Char) :=
  match spanDigits cs with
  | ([], _) => none
  | (ds, rest) =>
    let e : Int := Decimal.natOfDigits ds
    some (some (if negative then -e else e), rest)

/-- The exponent at the front, if there is one. -/
def scanExponent : List Char → Option (Option Int × List Char)
  | c :: cs =>
    if c == 'e' || c == 'E' then
      match cs with
      | '+' :: cs => scanExponentDigits false cs
      | '-' :: cs => scanExponentDigits true cs
      | cs => scanExponentDigits false cs
    else some (none, c :: cs)
  | [] => some (none, [])

/-- The digits in front of the point: a zero stands alone. -/
def scanWhole (cs : List Char) : Option (List Char × List Char) :=
  match spanDigits cs with
  | ([], _) => none
  | ('0' :: _ :: _, _) => none
  | (ds, rest) => some (ds, rest)

/-- The numeral at the front, and what follows it. -/
def scanNumeral (cs : List Char) : Option (Numeral × List Char) :=
  let (negative, cs) := match cs with
    | '-' :: cs => (true, cs)
    | cs => (false, cs)
  (scanWhole cs).bind fun (whole, cs) =>
    (scanFraction cs).bind fun (fraction, cs) =>
      (scanExponent cs).map fun (exponent, cs) => (⟨negative, whole, fraction, exponent⟩, cs)

end AnnotatedLogic.Document.Json
