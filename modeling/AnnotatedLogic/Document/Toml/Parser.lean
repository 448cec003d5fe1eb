import AnnotatedLogic.Document.Toml.Scalar
import AnnotatedLogic.Document.Toml.Table
import AnnotatedLogic.Document.Toml.Text
/-!
# Reading TOML

A text is a sequence of lines: a key with its value, a header, or nothing, each with an optional
comment. Values may be arrays, which go over several lines, and inline tables, which do not. Values
are nested up to a depth of 79 only, and a dotted key has no more parts than that.

* `scanKey`, `scanPath`: keys and dotted keys.
* `scanValue`: a value at the front of a text.
* `parse?`: the data of a text, or nothing if the text is not TOML.
-/

namespace AnnotatedLogic.Document.Toml

/-- What follows the blanks within a line. -/
def skipBlanks (cs : List Char) : List Char := cs.dropWhile isBlank

/-- What follows a comment, if there is one; it ends before the line break. -/
def skipComment (cs : List Char) : List Char :=
  match cs with
  | '#' :: rest => rest.dropWhile isPlain
  | _ => cs

/-- What follows the end of a line: blanks, a comment, and a line break or the end of the text. -/
def endOfLine? (cs : List Char) : Option (List Char) :=
  match skipComment (skipBlanks cs) with
  | [] => some []
  | cs => newline? cs

/-- What follows blanks, comments and line breaks; a text has at most `fuel` lines. -/
def skipTrivia : Nat → List Char → List Char
  | 0, cs => cs
  | fuel + 1, cs =>
    let cs := skipComment (skipBlanks cs)
    match newline? cs with
    | some rest => skipTrivia fuel rest
    | none => cs

/-- The characters of a key without quotes. -/
def isKeyChar (c : Char) : Bool := c.isAlphanum || c == '_' || c == '-'

/-- A key at the front, and what follows it. -/
def scanKey (cs : List Char) : Option (String × List Char) :=
  match cs with
  | '"' :: cs => basic? cs
  | '\'' :: cs => literal? cs
  | cs =>
    match cs.takeWhile isKeyChar with
    | [] => none
    | key => some (String.ofList key, cs.dropWhile isKeyChar)

/-- How deep values may be nested, and how many parts a dotted key may have. -/
def maxDepth : Nat := 79

/-- A dotted key of at most so many parts at the front: the path to its table, its last part, and
what follows it. -/
def scanPathFrom (read : List String) : Nat → List Char → Option (List String × String × List Char)
  | 0, _ => none
  | parts + 1, cs =>
    match scanKey (skipBlanks cs) with
    | none => none
    | some (key, cs) =>
      match skipBlanks cs with
      | '.' :: cs => scanPathFrom (key :: read) parts cs
      | cs => some (read.reverse, key, cs)

/-- A dotted key at the front. -/
def scanPath (cs : List Char) : Option (List String × String × List Char) :=
  scanPathFrom [] maxDepth cs

/-- The characters of a value without quotes. -/
def isWordChar (c : Char) : Bool :=
  c.isAlphanum || c == '_' || c == '-' || c == '+' || c == '.' || c == ':'

/-- A word at the front. A date and a time with a blank between them are one word. -/
def scanWord (cs : List Char) : List Char × List Char :=
  let word := cs.takeWhile isWordChar
  match cs.dropWhile isWordChar with
  | ' ' :: d :: rest =>
    if date? word == some [] && d.isDigit then
      (word ++ ' ' :: (d :: rest).takeWhile isWordChar, (d :: rest).dropWhile isWordChar)
    else (word, ' ' :: d :: rest)
  | rest => (word, rest)

mutual

/-- A value at the front, and what follows it. At most `depth` arrays and inline tables are nested in
it. -/
def scanValue : Nat → Nat → List Char → Option (Document × List Char)
  | 0, _, _ => none
  | fuel + 1, depth, cs =>
    match depth, cs with
    | 0, '[' :: _ => none
    | depth + 1, '[' :: cs =>
      (scanItems fuel depth (skipTrivia cs.length cs)).map fun (items, cs) => (.array items, cs)
    | 0, '{' :: _ => none
    | depth + 1, '{' :: cs =>
      match skipBlanks cs with
      | '}' :: cs => some (.object [], cs)
      | cs =>
        (scanFields fuel depth [] cs).map fun (fields, cs) =>
          (.object (fieldsToDocument fields), cs)
    | _, '"' :: cs => (scanString ('"' :: cs)).map fun (s, cs) => (.text s, cs)
    | _, '\'' :: cs => (scanString ('\'' :: cs)).map fun (s, cs) => (.text s, cs)
    | _, cs =>
      let (word, rest) := scanWord cs
      (scalar? word).map (·, rest)

/-- The items of an array from the next one on; a comma may follow the last one. -/
def scanItems : Nat → Nat → List Char → Option (List Document × List Char)
  | 0, _, _ => none
  | fuel + 1, depth, cs =>
    match cs with
    | ']' :: cs => some ([], cs)
    | cs =>
      match scanValue fuel depth cs with
      | none => none
      | some (d, cs) =>
        match skipTrivia cs.length cs with
        | ',' :: cs =>
          (scanItems fuel depth (skipTrivia cs.length cs)).map fun (items, cs) =>
            (d :: items, cs)
        | ']' :: cs => some ([d], cs)
        | _ => none

/-- The fields of an inline table from the next one on; no comma follows the last one. -/
def scanFields : Nat → Nat → Fields → List Char → Option (Fields × List Char)
  | 0, _, _, _ => none
  | fuel + 1, depth, fields, cs =>
    match scanPath cs with
    | some (path, key, '=' :: cs) =>
      match scanValue fuel depth (skipBlanks cs) with
      | none => none
      | some (d, cs) =>
        match assign? path key d fields with
        | none => none
        | some fields =>
          match skipBlanks cs with
          | ',' :: cs => scanFields fuel depth fields cs
          | '}' :: cs => some (fields, cs)
          | _ => none
    | _ => none

end

/-- What the lines read so far have made: all tables, and the path of the current one. -/
structure Progress where
  fields : Fields
  current : List String

/-- A value under a key in the current table. -/
def Progress.assign? (p : Progress) (path : List String) (key : String) (d : Document) :
    Option Progress :=
  (descend false (fun _ fields => Toml.assign? path key d fields) .header p.current p.fields).map
    fun fields => { p with fields := fields }

/-- One line at the front, and what follows it. -/
def scanLine (p : Progress) (cs : List Char) : Option (Progress × List Char) :=
  match cs with
  | '[' :: '[' :: cs =>
    match scanPath cs with
    | some (path, key, ']' :: ']' :: cs) =>
      (arrayHeader? path key p.fields).bind fun fields =>
        (endOfLine? cs).map (⟨fields, path ++ [key]⟩, ·)
    | _ => none
  | '[' :: cs =>
    match scanPath cs with
    | some (path, key, ']' :: cs) =>
      (header? path key p.fields).bind fun fields =>
        (endOfLine? cs).map (⟨fields, path ++ [key]⟩, ·)
    | _ => none
  | cs =>
    match scanPath cs with
    | some (path, key, '=' :: cs) =>
      let cs := skipBlanks cs
      (scanValue (2 * cs.length + 2) maxDepth cs).bind fun (d, cs) =>
        (p.assign? path key d).bind fun p => (endOfLine? cs).map (p, ·)
    | _ => none

/-- The lines of a text of at most `fuel` characters. -/
def scanLines : Nat → Progress → List Char → Option Fields
  | 0, p, cs => if cs.isEmpty then some p.fields else none
  | fuel + 1, p, cs =>
    match skipTrivia cs.length cs with
    | [] => some p.fields
    | cs => (scanLine p cs).bind fun (p, cs) => scanLines fuel p cs

/-- The data of a text. A byte order mark in front of it does not count. -/
def parse? (s : String) : Option Document :=
  let cs := match s.toList with
    | '\uFEFF' :: cs => cs
    | cs => cs
  (scanLines (cs.length + 1) ⟨[], []⟩ cs).map fun fields => .object (fieldsToDocument fields)

end AnnotatedLogic.Document.Toml
