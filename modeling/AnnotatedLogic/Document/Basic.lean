/-!
# Documents

A document is structured data as it is read from or written to a text: scalars, arrays, and objects
whose fields keep their order. Whole numbers and other numbers are told apart, because a count may
only be given by a whole number.

* `normal`: an object taken as a set of fields: of a repeated key the last value counts, and the
  keys are in the order of their names.
-/

namespace AnnotatedLogic

/-- Structured data. -/
inductive Document where
  | null
  | bool (b : Bool)
  /-- A number written as a whole number. -/
  | integer (n : Int)
  /-- A number written with a point or an exponent, or too large for a whole number. -/
  | real (x : Float)
  | text (s : String)
  | array (items : List Document)
  | object (fields : List (String × Document))
  /-- An object behind whose fields stands a key that is no text, or where the text breaks off. Who
  looks into it comes no further; who passes over it does not notice. -/
  | broken (fields : List (String × Document))
  /-- What is written properly but stands for no value that data can have, such as a number beyond
  the largest double; also the place where a text breaks off. -/
  | unreadable
deriving Inhabited

namespace Document

/-- Enters a field in the order of the keys, instead of one with the same key. -/
def putField (key : String) (value : Document) :
    List (String × Document) → List (String × Document)
  | [] => [(key, value)]
  | (k, v) :: rest =>
    if key < k then (key, value) :: (k, v) :: rest
    else if k = key then (key, value) :: rest
    else (k, v) :: putField key value rest

/-- Fields as a set: the last value of each key, in the order of the keys. -/
def sortFields (fields : List (String × Document)) : List (String × Document) :=
  fields.foldl (fun sorted f => putField f.1 f.2 sorted) []

mutual

/-- The document with every object taken as a set of fields. -/
def normal : Document → Document
  | array items => array (normalItems items)
  | object fields => object (sortFields (normalFields fields))
  | d => d

/-- The items with every object in them taken as a set of fields. -/
def normalItems : List Document → List Document
  | [] => []
  | d :: ds => d.normal :: normalItems ds

/-- The fields with every object in their values taken as a set of fields. -/
def normalFields : List (String × Document) → List (String × Document)
  | [] => []
  | (key, value) :: rest => (key, value.normal) :: normalFields rest

end

/-- The value of the first field with a key. -/
def field? (key : String) : Document → Option Document
  | object fields => (fields.find? fun f => f.1 == key).map (·.2)
  | _ => none

end Document

end AnnotatedLogic
