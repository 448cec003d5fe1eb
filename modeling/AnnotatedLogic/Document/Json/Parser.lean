import AnnotatedLogic.Document.Json.Token
/-!
# Reading JSON

Tokens become a document. Reading goes on to the first fault and keeps what stands before it, so
that whoever looks at the document meets the faults of the text in their order.

* `parse`: the document of a text, and whether the text is JSON to its end. Where it is not, the
  arrays that were open end in an unreadable item, and the objects that were open are broken.
-/

namespace AnnotatedLogic.Document.Json

/-- The document of a string. -/
def ofText : Option String → Document
  | some s => .text s
  | none => .unreadable

/-- The fields in front of the first one without a key. -/
def keyed : List (Option String × Document) → List (String × Document)
  | (some key, d) :: fs => (key, d) :: keyed fs
  | _ => []

/-- The object of these fields, broken at the first one without a key. -/
def ofFields (fs : List (Option String × Document)) : Document :=
  if fs.all fun f => f.1.isSome then .object (keyed fs) else .broken (keyed fs)

mutual

/-- The value at the front, and the tokens that follow it unless a fault was met. -/
def value : Nat → List Token → Document × Option (List Token)
  | _ + 1, .scalar d :: rest => (d, some rest)
  | _ + 1, .text s :: rest => (ofText s, some rest)
  | _ + 1, .openArray :: .closeArray :: rest => (.array [], some rest)
  | fuel + 1, .openArray :: rest =>
    let (items, rest) := items fuel rest
    (.array items, rest)
  | _ + 1, .openObject :: .closeObject :: rest => (.object [], some rest)
  | fuel + 1, .openObject :: rest =>
    let (fields, rest) := fields fuel rest
    (ofFields fields, rest)
  | _, _ => (.unreadable, none)

/-- The items of an array from the next one on. -/
def items : Nat → List Token → List Document × Option (List Token)
  | 0, _ => ([.unreadable], none)
  | fuel + 1, tokens =>
    match value fuel tokens with
    | (d, some (.comma :: rest)) =>
      let (ds, rest) := items fuel rest
      (d :: ds, rest)
    | (d, some (.closeArray :: rest)) => ([d], some rest)
    | (d, some _) => ([d, .unreadable], none)
    | (d, none) => ([d], none)

/-- The fields of an object from the next one on. Where the text breaks off stands one without a
key. -/
def fields : Nat → List Token → List (Option String × Document) × Option (List Token)
  | fuel + 1, .text key :: .colon :: rest =>
    match value fuel rest with
    | (d, some (.comma :: rest)) =>
      let (fs, rest) := fields fuel rest
      ((key, d) :: fs, rest)
    | (d, some (.closeObject :: rest)) => ([(key, d)], some rest)
    | (d, _) => ([(key, d), (none, .unreadable)], none)
  | _, _ => ([(none, .unreadable)], none)

end

/-- The document of a text, and whether the text is JSON to its end. No token opens more than two
levels of the recursion. -/
def parse (s : String) : Document × Bool :=
  let tokens := tokens s.toList
  match value (2 * tokens.length + 1) tokens with
  | (d, some []) => (d, true)
  | (d, _) => (d, false)

end AnnotatedLogic.Document.Json
