import AnnotatedLogic.Document.Basic
import AnnotatedLogic.Decimal.Layout
/-!
# Writing JSON

* `pretty`: a field or item to a line, indented by two blanks for each level; an empty array or
  object stays on one line.
* `compact`: no blanks at all.

In strings, quotes, backslashes and control characters are escaped, and nothing else. A number that
JSON has no numeral for is written as `null`.
-/

namespace AnnotatedLogic.Document.Json

/-- A hexadecimal digit in lower case. -/
def hexDigit (n : Nat) : Char :=
  if n < 10 then Char.ofNat ('0'.toNat + n) else Char.ofNat ('a'.toNat + (n - 10))

/-- A character of a string. -/
def escapeChar (c : Char) : List Char :=
  if c = '"' then ['\\', '"']
  else if c = '\\' then ['\\', '\\']
  else if c = '\x08' then ['\\', 'b']
  else if c = '\x0c' then ['\\', 'f']
  else if c = '\n' then ['\\', 'n']
  else if c = '\r' then ['\\', 'r']
  else if c = '\t' then ['\\', 't']
  else if c.toNat < 0x20 then
    ['\\', 'u', '0', '0', hexDigit (c.toNat / 16), hexDigit (c.toNat % 16)]
  else [c]

/-- A string with its quotes. -/
def quoted (s : String) : List Char :=
  '"' :: (s.toList.flatMap escapeChar ++ ['"'])

/-- The break before an item at a level; none where nothing is indented. -/
def lineBreak : Option Nat → List Char
  | none => []
  | some level => '\n' :: List.replicate (2 * level) ' '

/-- One level further in. -/
def deeper (indent : Option Nat) : Option Nat := indent.map (· + 1)

/-- What stands between a key and its value. -/
def keySeparator : Option Nat → List Char
  | none => [':']
  | some _ => [':', ' ']

mutual

/-- The text of a document whose first line is at a level. -/
def chars (indent : Option Nat) : Document → List Char
  | .null => "null".toList
  | .bool true => "true".toList
  | .bool false => "false".toList
  | .integer n => (toString n).toList
  | .real x => if x.isFinite then (Decimal.Layout.exchange.text x).toList else "null".toList
  | .text s => quoted s
  | .array [] => ['[', ']']
  | .array (d :: ds) =>
    '[' :: (lineBreak (deeper indent) ++ (chars (deeper indent) d
      ++ (itemChars (deeper indent) ds ++ (lineBreak indent ++ [']']))))
  | .object [] => ['{', '}']
  | .object ((key, d) :: fs) =>
    '{' :: (lineBreak (deeper indent) ++ (quoted key ++ (keySeparator indent
      ++ (chars (deeper indent) d ++ (fieldChars (deeper indent) fs
      ++ (lineBreak indent ++ ['}']))))))
  | .broken _ => "null".toList
  | .unreadable => "null".toList

/-- The text of the items behind the first. -/
def itemChars (indent : Option Nat) : List Document → List Char
  | [] => []
  | d :: ds => ',' :: (lineBreak indent ++ (chars indent d ++ itemChars indent ds))

/-- The text of the fields behind the first. -/
def fieldChars (indent : Option Nat) : List (String × Document) → List Char
  | [] => []
  | (key, d) :: fs =>
    ',' :: (lineBreak indent ++ (quoted key ++ (keySeparator indent
      ++ (chars indent d ++ fieldChars indent fs))))

end

/-- A document with every field and item on a line of its own. -/
def pretty (d : Document) : String := String.ofList (chars (some 0) d)

/-- A document on one line. -/
def compact (d : Document) : String := String.ofList (chars none d)

end AnnotatedLogic.Document.Json
