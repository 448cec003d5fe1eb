import AnnotatedLogic.Decimal.Reading
import AnnotatedLogic.Document.Basic
/-!
# Scalars of TOML

Words that stand for a value without quotes: truth values, integers in four bases, floats and
dates. An underscore may stand between two digits.

* `scalar?`: the value of a word. A date or time is a value, but not one that data here can have.
* `date?`, `clock?`: the shape and the ranges of dates and times.
-/

namespace AnnotatedLogic.Document.Toml

/-- The digits of a numeral without the underscores, each of which stands between two digits. -/
def digits? (isDigit : Char → Bool) : List Char → Option (List Char)
  | [] => none
  | c :: cs =>
    if isDigit c then
      match cs with
      | [] => some [c]
      | '_' :: cs => (digits? isDigit cs).map (c :: ·)
      | cs => (digits? isDigit cs).map (c :: ·)
    else none

/-- The value of a digit in the bases up to sixteen. -/
def digitValue (c : Char) : Nat :=
  if c.isDigit then c.toNat - '0'.toNat
  else if 'a' ≤ c ∧ c ≤ 'f' then c.toNat - 'a'.toNat + 10
  else c.toNat - 'A'.toNat + 10

/-- Whether a character is a digit in a base. -/
def isDigitOf (base : Nat) (c : Char) : Bool :=
  (c.isDigit || ('a' ≤ c && c ≤ 'f') || ('A' ≤ c && c ≤ 'F')) && decide (digitValue c < base)

/-- An integer in a base other than ten; it has no sign. -/
def based? (base : Nat) (cs : List Char) : Option Document :=
  (digits? (isDigitOf base) cs).bind fun ds =>
    let n := ds.foldl (fun n c => base * n + digitValue c) 0
    if n < Nat.pow 2 63 then some (.integer n) else none

/-- The whole part of a decimal numeral: a zero does not stand in front of other digits. -/
def wholeDigits? (cs : List Char) : Option (List Char) :=
  match digits? Char.isDigit cs with
  | some ('0' :: _ :: _) => none
  | ds => ds

/-- A decimal integer of 64 bits. -/
def decimalInteger? (negative : Bool) (cs : List Char) : Option Document :=
  (wholeDigits? cs).bind fun ds =>
    let n := Decimal.natOfDigits ds
    if negative then if n ≤ Nat.pow 2 63 then some (.integer (-n)) else none
    else if n < Nat.pow 2 63 then some (.integer n)
    else none

/-- An exponent: digits behind an optional sign. -/
def exponent? (cs : List Char) : Option Int :=
  let (negative, cs) := Decimal.splitSign cs
  (digits? Char.isDigit cs).map fun ds =>
    if negative then -(Decimal.natOfDigits ds : Int) else Decimal.natOfDigits ds

/-- The part of a word in front of the first of some characters, and the part behind it if there
is one. -/
def splitAt (isMark : Char → Bool) (cs : List Char) : List Char × Option (List Char) :=
  match cs.dropWhile fun c => !isMark c with
  | [] => (cs, none)
  | _ :: rest => (cs.takeWhile fun c => !isMark c, some rest)

/-- A float: a whole part with a fraction, an exponent or both. One that is positive has to be
below infinity. -/
def decimalFloat? (negative : Bool) (cs : List Char) : Option Document :=
  let (mantissa, exponent) := splitAt (fun c => c == 'e' || c == 'E') cs
  let (whole, fraction) := splitAt (· == '.') mantissa
  if exponent.isNone && fraction.isNone then none
  else
    match wholeDigits? whole, fraction.elim (some []) (digits? Char.isDigit),
      exponent.elim (some 0) exponent? with
    | some whole, some fraction, some e =>
      let x := Decimal.ofDigits (Decimal.natOfDigits (whole ++ fraction)) (e - fraction.length)
      if negative then some (.real (-x)) else if x.isInf then none else some (.real x)
    | _, _, _ => none

/-- A number of so many digits in front of a word, and the rest of the word. -/
def fixedDigits? (n : Nat) (cs : List Char) : Option (Nat × List Char) :=
  let ds := cs.take n
  if ds.length = n ∧ ds.all Char.isDigit = true then some (Decimal.natOfDigits ds, cs.drop n)
  else none

/-- The number of days of a month. -/
def daysIn (year month : Nat) : Nat :=
  if month = 2 then
    if (year % 4 = 0 ∧ year % 100 ≠ 0) ∨ year % 400 = 0 then 29 else 28
  else if month = 4 ∨ month = 6 ∨ month = 9 ∨ month = 11 then 30
  else 31

/-- A date in front of a word, and the rest of the word. -/
def date? (cs : List Char) : Option (List Char) :=
  match fixedDigits? 4 cs with
  | some (year, '-' :: cs) =>
    match fixedDigits? 2 cs with
    | some (month, '-' :: cs) =>
      match fixedDigits? 2 cs with
      | some (day, cs) =>
        if 1 ≤ month ∧ month ≤ 12 ∧ 1 ≤ day ∧ day ≤ daysIn year month then some cs else none
      | none => none
    | _ => none
  | _ => none

/-- A time of day in front of a word, and the rest of the word. -/
def clock? (cs : List Char) : Option (List Char) :=
  match fixedDigits? 2 cs with
  | some (hour, ':' :: cs) =>
    match fixedDigits? 2 cs with
    | some (minute, ':' :: cs) =>
      match fixedDigits? 2 cs with
      | some (second, cs) =>
        if hour ≤ 23 ∧ minute ≤ 59 ∧ second ≤ 60 then
          match cs with
          | '.' :: cs =>
            if (cs.takeWhile Char.isDigit).isEmpty then none else some (cs.dropWhile Char.isDigit)
          | cs => some cs
        else none
      | none => none
    | _ => none
  | _ => none

/-- Whether a word is the offset of a time from universal time, or nothing. -/
def isOffset (cs : List Char) : Bool :=
  match cs with
  | [] => true
  | ['Z'] => true
  | ['z'] => true
  | c :: cs =>
    (c == '+' || c == '-') &&
      match fixedDigits? 2 cs with
      | some (hour, ':' :: cs) =>
        match fixedDigits? 2 cs with
        | some (minute, []) => decide (hour ≤ 23 ∧ minute ≤ 59)
        | _ => false
      | _ => false

/-- Whether a word is a date, a time of day, or a date with a time. -/
def isDateTime (cs : List Char) : Bool :=
  match date? cs with
  | some [] => true
  | some (c :: cs) =>
    (c == 'T' || c == 't' || c == ' ') && (clock? cs).elim false isOffset
  | none => clock? cs == some []

/-- The value of a word. -/
def scalar? (cs : List Char) : Option Document :=
  let word := String.ofList cs
  let (negative, size) := Decimal.splitSign cs
  if word = "true" then some (.bool true)
  else if word = "false" then some (.bool false)
  else if size = "inf".toList then some (.real (if negative then -(1 / 0) else 1 / 0))
  else if size = "nan".toList then some (.real (0 / 0))
  else if isDateTime cs then some .unreadable
  else
    match cs with
    | '0' :: 'x' :: ds => based? 16 ds
    | '0' :: 'o' :: ds => based? 8 ds
    | '0' :: 'b' :: ds => based? 2 ds
    | _ => (decimalInteger? negative size).or (decimalFloat? negative size)

end AnnotatedLogic.Document.Toml
