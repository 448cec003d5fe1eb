import AnnotatedLogic.Document.Json.Token
/-!
# Strings of TOML

There are four kinds of strings: with or without escapes, on one line or on several. All scanners
take the text behind the opening quotes and return the string and what follows the closing quotes.

* `basic?`, `literal?`: strings on one line.
* `multiBasic?`, `multiLiteral?`: strings on several lines. A line break right behind the opening
  quotes does not count, and every line break counts as one line feed.
-/

namespace AnnotatedLogic.Document.Toml

/-- The characters that may stand in a string or comment as they are. -/
def isPlain (c : Char) : Bool := c == '\t' || (0x20 ≤ c.toNat && c.toNat != 0x7F)

/-- The blanks within a line. -/
def isBlank (c : Char) : Bool := c == ' ' || c == '\t'

/-- What follows a line break at the front. -/
def newline? : List Char → Option (List Char)
  | '\n' :: cs => some cs
  | '\r' :: '\n' :: cs => some cs
  | _ => none

/-- The character with a code, unless the code is that of a half of a surrogate pair or too large. -/
def charOfCode? (n : Nat) : Option Char :=
  if n < 0xD800 ∨ (0xE000 ≤ n ∧ n < 0x110000) then some (Char.ofNat n) else none

/-- The character that an escape of one letter stands for. -/
def escape? : Char → Option Char
  | 'b' => some '\x08'
  | 't' => some '\t'
  | 'n' => some '\n'
  | 'f' => some '\x0c'
  | 'r' => some '\r'
  | '"' => some '"'
  | '\\' => some '\\'
  | _ => none

/-- The character that an escape behind its backslash stands for, and what follows it. -/
def scanEscape (cs : List Char) : Option (Char × List Char) :=
  let coded (n : Nat) (cs : List Char) : Option (Char × List Char) :=
    if (cs.take n).length = n then
      ((Json.hexValue? 0 (cs.take n)).bind charOfCode?).map fun c => (c, cs.drop n)
    else none
  match cs with
  | 'u' :: cs => coded 4 cs
  | 'U' :: cs => coded 8 cs
  | c :: cs => (escape? c).map fun e => (e, cs)
  | [] => none

/-- A string on one line with escapes. The text has at most `fuel` characters. -/
def basicFrom (read : List Char) : Nat → List Char → Option (String × List Char)
  | 0, _ => none
  | _ + 1, [] => none
  | fuel + 1, c :: cs =>
    if c = '"' then some (String.ofList read.reverse, cs)
    else if c = '\\' then (scanEscape cs).bind fun (e, cs) => basicFrom (e :: read) fuel cs
    else if isPlain c then basicFrom (c :: read) fuel cs
    else none

/-- A string on one line with escapes. -/
def basic? (cs : List Char) : Option (String × List Char) := basicFrom [] (cs.length + 1) cs

/-- A string on one line without escapes. -/
def literal? (cs : List Char) : Option (String × List Char) :=
  match cs.dropWhile fun c => c != '\'' && isPlain c with
  | '\'' :: rest => some (String.ofList (cs.takeWhile fun c => c != '\'' && isPlain c), rest)
  | _ => none

/-- What follows the closing quotes of a string on several lines, and how many quotes before them
belong to the string: at most two. -/
def closing? (quote : Char) (cs : List Char) : Option (Nat × List Char) :=
  let n := (cs.takeWhile (· == quote)).length
  if 3 ≤ n then some (min (n - 3) 2, cs.drop (min n 5)) else none

/-- What follows blanks and line breaks. -/
def skipLines : List Char → List Char
  | '\r' :: '\n' :: cs => skipLines cs
  | c :: cs => if isBlank c || c == '\n' then skipLines cs else c :: cs
  | [] => []

/-- A string on several lines. Escapes count if `escapes` says so; a backslash at the end of a line
skips to the next character that is not blank. -/
def multiFrom (quote : Char) (escapes : Bool) (read : List Char) :
    Nat → List Char → Option (String × List Char)
  | 0, _ => none
  | _ + 1, [] => none
  | fuel + 1, c :: cs =>
    match closing? quote (c :: cs) with
    | some (n, rest) => some (String.ofList ((List.replicate n quote ++ read).reverse), rest)
    | none =>
      if escapes && c == '\\' then
        match newline? (cs.dropWhile isBlank) with
        | some rest => multiFrom quote escapes read fuel (skipLines rest)
        | none => (scanEscape cs).bind fun (e, cs) => multiFrom quote escapes (e :: read) fuel cs
      else
        match newline? (c :: cs) with
        | some rest => multiFrom quote escapes ('\n' :: read) fuel rest
        | none => if isPlain c then multiFrom quote escapes (c :: read) fuel cs else none

/-- A string on several lines behind its opening quotes. -/
def multi? (quote : Char) (escapes : Bool) (cs : List Char) : Option (String × List Char) :=
  let cs := (newline? cs).getD cs
  multiFrom quote escapes [] (cs.length + 1) cs

/-- A string at the front, of any of the four kinds. -/
def scanString : List Char → Option (String × List Char)
  | '"' :: '"' :: '"' :: cs => multi? '"' true cs
  | '"' :: cs => basic? cs
  | '\'' :: '\'' :: '\'' :: cs => multi? '\'' false cs
  | '\'' :: cs => literal? cs
  | _ => none

end AnnotatedLogic.Document.Toml
