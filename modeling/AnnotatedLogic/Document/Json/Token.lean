import AnnotatedLogic.Document.Json.Number
/-!
# Tokens of JSON

The text of a document is cut into tokens: marks, words, numbers and strings. Where the text is not
JSON a last token says so.

* `scanText`: a string behind its opening quote. A half of a surrogate pair is written properly but
  is no text.
* `tokens`: the tokens of a text, without the blanks between them.
-/

namespace AnnotatedLogic.Document.Json

/-- A token. -/
inductive Token where
  | openArray
  | closeArray
  | openObject
  | closeObject
  | comma
  | colon
  /-- A word or a number. -/
  | scalar (d : Document)
  /-- A string, or nothing if it is written properly but is no text. -/
  | text (s : Option String)
  /-- The text is not JSON from here on. -/
  | fault
deriving Inhabited

/-- The blanks between tokens. -/
def isSpace (c : Char) : Bool := c == ' ' || c == '\n' || c == '\t' || c == '\r'

/-- The character that a one-letter escape stands for. -/
def escape? : Char → Option Char
  | '"' => some '"'
  | '\\' => some '\\'
  | '/' => some '/'
  | 'b' => some '\x08'
  | 'f' => some '\x0c'
  | 'n' => some '\n'
  | 'r' => some '\r'
  | 't' => some '\t'
  | _ => none

/-- The value of a hexadecimal digit. -/
def hexDigit? (c : Char) : Option Nat :=
  if '0' ≤ c ∧ c ≤ '9' then some (c.toNat - '0'.toNat)
  else if 'a' ≤ c ∧ c ≤ 'f' then some (c.toNat - 'a'.toNat + 10)
  else if 'A' ≤ c ∧ c ≤ 'F' then some (c.toNat - 'A'.toNat + 10)
  else none

/-- The value of hexadecimal digits behind a value. -/
def hexValue? (n : Nat) : List Char → Option Nat
  | [] => some n
  | c :: cs => (hexDigit? c).bind fun d => hexValue? (16 * n + d) cs

/-- The first half of a surrogate pair. -/
def isHighSurrogate (n : Nat) : Bool := decide (0xD800 ≤ n ∧ n ≤ 0xDBFF)

/-- The second half of a surrogate pair. -/
def isLowSurrogate (n : Nat) : Bool := decide (0xDC00 ≤ n ∧ n ≤ 0xDFFF)

/-- The character of a surrogate pair. -/
def surrogatePair (high low : Nat) : Char :=
  Char.ofNat (0x10000 + (high - 0xD800) * 0x400 + (low - 0xDC00))

/-- A string behind its opening quote, and what follows it. `read` holds the characters so far, the
last one first, unless a half of a surrogate pair was among them. -/
def scanText (read : Option (List Char)) : List Char → Option (Option String × List Char)
  | [] => none
  | '"' :: cs => some (read.map fun r => String.ofList r.reverse, cs)
  | '\\' :: 'u' :: a :: b :: c :: d :: cs =>
    match hexValue? 0 [a, b, c, d] with
    | none => none
    | some high =>
      if isHighSurrogate high then
        match cs with
        | '\\' :: 'u' :: e :: f :: g :: h :: rest =>
          match hexValue? 0 [e, f, g, h] with
          | none => none
          | some low =>
            if isLowSurrogate low then
              scanText (read.map (surrogatePair high low :: ·)) rest
            else scanText none ('\\' :: 'u' :: e :: f :: g :: h :: rest)
        | cs => scanText none cs
      else if isLowSurrogate high then scanText none cs
      else scanText (read.map (Char.ofNat high :: ·)) cs
  | '\\' :: e :: cs =>
    match escape? e with
    | some c => scanText (read.map (c :: ·)) cs
    | none => none
  | c :: cs => if c.toNat < 0x20 then none else scanText (read.map (c :: ·)) cs

/-- The token at the front of a text that does not start with a blank, and what follows it. -/
def scanToken : List Char → Option (Token × List Char)
  | '[' :: cs => some (.openArray, cs)
  | ']' :: cs => some (.closeArray, cs)
  | '{' :: cs => some (.openObject, cs)
  | '}' :: cs => some (.closeObject, cs)
  | ',' :: cs => some (.comma, cs)
  | ':' :: cs => some (.colon, cs)
  | '"' :: cs => (scanText (some []) cs).map fun (s, cs) => (.text s, cs)
  | 'n' :: 'u' :: 'l' :: 'l' :: cs => some (.scalar .null, cs)
  | 't' :: 'r' :: 'u' :: 'e' :: cs => some (.scalar (.bool true), cs)
  | 'f' :: 'a' :: 'l' :: 's' :: 'e' :: cs => some (.scalar (.bool false), cs)
  | cs => (scanNumeral cs).map fun (n, cs) => (.scalar n.value, cs)

/-- The tokens of a text of at most `fuel` characters. -/
def tokensFrom : Nat → List Char → List Token
  | 0, _ => []
  | _ + 1, [] => []
  | fuel + 1, c :: cs =>
    if isSpace c then tokensFrom fuel cs
    else
      match scanToken (c :: cs) with
      | none => [.fault]
      | some (token, rest) => token :: tokensFrom fuel rest

/-- The tokens of a text. Every token and blank takes a character at least. -/
def tokens (cs : List Char) : List Token := tokensFrom cs.length cs

end AnnotatedLogic.Document.Json
