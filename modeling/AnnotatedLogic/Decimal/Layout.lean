import AnnotatedLogic.Decimal.Shortest
/-!
# How a number is laid out

The digits of a double are the shortest ones that read back; a layout says where the point goes.

* `Layout.plain`: never an exponent, and no point in a whole number: `1`, `0.0000001`. Of two
  equally near decimals the larger one is taken.
* `Layout.exchange`: whole numbers keep `.0`, and an exponent, always with its sign, is written
  outside `10 ^ -5` to `10 ^ 16`: `1.0`, `0.00001`, `1e-6`, `1e+16`. Of two equally near decimals
  the even one is taken.
-/

namespace AnnotatedLogic.Decimal

/-- The choices that a number format makes beside the digits. -/
structure Layout where
  /-- Whether a number is written without an exponent, by the number of its digits before the
  point: `1` for `2.5`, `0` for `0.25`, `-1` for `0.025`. -/
  positional : Int → Bool
  /-- What follows the digits of a whole number. -/
  wholeTail : String
  /-- Which of two equally near decimals is taken. -/
  tie : Tie

/-- Numbers in messages and tables. -/
def Layout.plain : Layout where
  positional _ := true
  wholeTail := ""
  tie := .up

/-- Numbers in exchange documents. -/
def Layout.exchange : Layout where
  positional p := decide (-5 < p ∧ p ≤ 16)
  wholeTail := ".0"
  tie := .toEven

/-- So many zeros. -/
def zeros (n : Nat) : String :=
  String.ofList (List.replicate n '0')

/-- A number with its sign, whichever that is. -/
def signed (n : Int) : String :=
  (if 0 ≤ n then "+" else "") ++ toString n

/-- Digits with the point in its place, or with one digit before it and an exponent. -/
def Layout.digits (l : Layout) (d : Digits) : String :=
  let ds := (toString d.digits).toList
  let point : Int := ds.length + d.exponent
  if l.positional point then
    if 0 ≤ d.exponent then String.ofList ds ++ zeros d.exponent.toNat ++ l.wholeTail
    else if 0 < point then
      String.ofList (ds.take point.toNat) ++ "." ++ String.ofList (ds.drop point.toNat)
    else "0." ++ zeros (-point).toNat ++ String.ofList ds
  else
    let fraction := if ds.length ≤ 1 then "" else "." ++ String.ofList (ds.drop 1)
    String.ofList (ds.take 1) ++ fraction ++ "e" ++ signed (point - 1)

/-- The text of a double. Infinities and what is no number have names, and zero keeps its sign. -/
def Layout.text (l : Layout) (x : Float) : String :=
  if x.isNaN then "NaN"
  else
    let sign := if Nat.pow 2 63 ≤ x.toBits.toNat then "-" else ""
    let size :=
      if x.isInf then "inf"
      else if x == 0 then "0" ++ l.wholeTail
      else l.digits (shortest l.tie x.toBits)
    sign ++ size

/-- The text of a double in messages and tables. -/
def plain (x : Float) : String := Layout.plain.text x

end AnnotatedLogic.Decimal
