import AnnotatedLogic.Document.Basic
/-!
# Tables of TOML

The lines of a text fill a tree of tables. A table comes about by its own header, by a longer header
that passes through it, or by a dotted key; which of these it was decides whether it may be defined
or extended later.

* `assign?`: a value under a dotted key in the current table. Only tables made by dotted keys are
  extended by them, and no key gets a second value.
* `header?`: a table of its own; only one that was merely passed through may be defined again.
* `arrayHeader?`: one more table at the end of an array of tables.
-/

namespace AnnotatedLogic.Document.Toml

/-- How a table came about. -/
inductive Origin where
  | header
  | passed
  | dotted
deriving DecidableEq, Inhabited

/-- What a key stands for. -/
inductive Item where
  | value (d : Document)
  | table (origin : Origin) (fields : List (String × Item))
  /-- An array of tables, the last one first. -/
  | tables (elements : List Item)
deriving Inhabited

/-- The contents of a table. -/
abbrev Fields := List (String × Item)

/-- The item of a key. -/
def find? (key : String) (fields : Fields) : Option Item :=
  (fields.find? fun f => f.1 == key).map (·.2)

/-- Enters an item in the place of its key, or at the end. -/
def put (key : String) (item : Item) : Fields → Fields
  | [] => [(key, item)]
  | (k, i) :: rest => if k = key then (key, item) :: rest else (k, i) :: put key item rest

/-- Changes the table at the end of a path, making the tables on the way that are not there. A
dotted path does not enter a table that has a header. The change learns how the table came about. -/
def descend (dotted : Bool) (change : Origin → Fields → Option Fields) (origin : Origin) :
    List String → Fields → Option Fields
  | [], fields => change origin fields
  | key :: path, fields =>
    match find? key fields with
    | none =>
      let made := if dotted then Origin.dotted else .passed
      (descend dotted change made path []).map fun sub => put key (.table made sub) fields
    | some (.table made sub) =>
      if dotted ∧ made = .header then none
      else (descend dotted change made path sub).map fun sub => put key (.table made sub) fields
    | some (.tables (.table made sub :: others)) =>
      (descend dotted change made path sub).map fun sub =>
        put key (.tables (.table made sub :: others)) fields
    | some _ => none

/-- A key with a value in a table that has no such key. -/
def enter (key : String) (item : Item) (fields : Fields) : Option Fields :=
  match find? key fields with
  | none => some (fields ++ [(key, item)])
  | some _ => none

/-- A value under a key, whose path leads through tables made by dotted keys. -/
def assign? (path : List String) (key : String) (d : Document) (fields : Fields) : Option Fields :=
  descend true
    (fun origin fields =>
      if path.isEmpty || origin == .dotted then enter key (.value d) fields else none)
    .header path fields

/-- A header: the table at its end is defined, once. -/
def header? (path : List String) (key : String) (fields : Fields) : Option Fields :=
  descend false
    (fun _ fields =>
      match find? key fields with
      | none => some (fields ++ [(key, .table .header [])])
      | some (.table .passed sub) => some (put key (.table .header sub) fields)
      | some _ => none)
    .header path fields

/-- A header of an array of tables: one more table. -/
def arrayHeader? (path : List String) (key : String) (fields : Fields) : Option Fields :=
  descend false
    (fun _ fields =>
      match find? key fields with
      | none => some (fields ++ [(key, .tables [.table .header []])])
      | some (.tables elements) => some (put key (.tables (.table .header [] :: elements)) fields)
      | some _ => none)
    .header path fields

mutual

/-- The data that an item stands for. -/
def Item.toDocument : Item → Document
  | .value d => d
  | .table _ fields => .object (fieldsToDocument fields)
  | .tables elements => .array (elementsToDocument elements).reverse

/-- The fields of a table as data. -/
def fieldsToDocument : List (String × Item) → List (String × Document)
  | [] => []
  | (key, item) :: rest => (key, item.toDocument) :: fieldsToDocument rest

/-- The tables of an array as data. -/
def elementsToDocument : List Item → List Document
  | [] => []
  | item :: rest => item.toDocument :: elementsToDocument rest

end

end AnnotatedLogic.Document.Toml
