import AnnotatedLogic.Document.Basic
import AnnotatedLogic.Error
/-!
# Taking values out of documents

A reading is a value or the first fault on the way to it. Faults carry the place where they were
met, so the parts of a record may be read in any order: of two faults the one that comes first in
the document is reported.

* `Reading` is an applicative functor; `<*>` keeps the earlier of two faults.
* `Record`: the fields of an object, found by their keys, or the items of an array, found by their
  places. A key that is given twice is a fault; an unknown key is not.
* `natural`, `number`, `text`, `list`, `pair`, …: readers of values of one kind.
* `choice`, `variant`: readers of one of several cases. Which fault of a case comes first depends on
  its `Delivery`.
-/

namespace AnnotatedLogic

/-- A fault, where it was met, and why. The place is a path of positions from the top of the
document; a position past the last part stands for the end. -/
structure Fault where
  path : List Nat
  defect : Defect
deriving DecidableEq

/-- The fault that comes first in the document; of two in one place, the first given. -/
def Fault.earlier (a b : Fault) : Fault :=
  if b.path < a.path then b else a

/-- A value, or the first fault on the way to it. -/
inductive Reading (α : Type) where
  | value (a : α)
  | fault (f : Fault)

namespace Reading

variable {α β : Type}

/-- Applies a function read to an argument read. -/
def ap (f : Reading (α → β)) (x : Reading α) : Reading β :=
  match f, x with
  | value f, value x => value (f x)
  | value _, fault b => fault b
  | fault a, value _ => fault a
  | fault a, fault b => fault (a.earlier b)

instance : Applicative Reading where
  pure := value
  seq f x := f.ap (x ())

@[simp] theorem value_seq_value (f : α → β) (x : α) :
    (value f <*> value x : Reading β) = value (f x) := rfl

@[simp] theorem map_value (f : α → β) (x : α) : (f <$> value x : Reading β) = value (f x) := rfl

/-- A fault in this very place. -/
def fail (defect : Defect) : Reading α := fault ⟨[], defect⟩

/-- A document that has not the expected form in this very place. -/
def malformed : Reading α := fail .form

/-- What was read of the part at a position. -/
def within (position : Nat) : Reading α → Reading α
  | value a => value a
  | fault f => fault ⟨position :: f.path, f.defect⟩

/-- A further test of what was read; a defect that it finds belongs to the whole part. -/
def check (x : Reading α) (test : α → Except Defect β) : Reading β :=
  match x with
  | fault f => fault f
  | value a =>
    match test a with
    | .ok b => value b
    | .error defect => fail defect

/-- The value, or the defect that is reported. -/
def toExcept : Reading α → Except Defect α
  | value a => .ok a
  | fault f => .error f.defect

end Reading

/-- How a document reaches its reader. -/
inductive Delivery where
  /-- As a text, from its front: what stands first is judged first. -/
  | text
  /-- As data that are all at hand: the form of an object is judged before its contents. -/
  | data
deriving DecidableEq

/-- The fault of an object that has a second key where it should have one only. -/
def Delivery.secondKey : Delivery → Reading Unit
  | text => Reading.malformed.within 1
  | data => .malformed

/-- Reads values of a type. -/
abbrev Reader (α : Type) := Document → Reading α

namespace Reader

variable {α β : Type}

/-! ## Scalars -/

/-- A count: a whole number that is not negative. -/
def natural : Reader Nat
  | .integer n => if 0 ≤ n then .value n.toNat else .malformed
  | _ => .malformed

/-- A number, whole or not. -/
def number : Reader Float
  | .integer n => .value (Float.ofInt n)
  | .real x => .value x
  | _ => .malformed

/-- A truth value of two. -/
def boolean : Reader Bool
  | .bool b => .value b
  | _ => .malformed

/-- A string. -/
def text : Reader String
  | .text s => .value s
  | _ => .malformed

/-- A value or nothing. -/
def optional (read : Reader α) : Reader (Option α)
  | .null => .value none
  | d => some <$> read d

/-! ## Arrays -/

/-- The items from a position on. -/
def listFrom (read : Reader α) : Nat → List Document → Reading (List α)
  | _, [] => .value []
  | position, d :: ds =>
    List.cons <$> (read d).within position <*> listFrom read (position + 1) ds

/-- An array of values of one kind. -/
def list (read : Reader α) : Reader (List α)
  | .array items => listFrom read 0 items
  | _ => .malformed

/-- An array of two values. -/
def pair (first : Reader α) (second : Reader β) : Reader (α × β)
  | .array (a :: b :: rest) =>
    let ends : Reading Unit := if rest.isEmpty then .value () else Reading.malformed.within 2
    (fun a b _ => (a, b)) <$> (first a).within 0 <*> (second b).within 1 <*> ends
  | .array [a] => (fun _ rest => rest) <$> (first a).within 0 <*> Reading.malformed.within 1
  | _ => .malformed

end Reader

/-! ## Records -/

/-- The parts of a record. -/
inductive Record where
  /-- Found by their places. -/
  | items (items : List Document)
  /-- Found by their keys. -/
  | fields (fields : List (String × Document))

namespace Record

variable {α : Type}

/-- The positions and values of the fields with a key, counting fields from `position`. -/
def occurrences (key : String) : Nat → List (String × Document) → List (Nat × Document)
  | _, [] => []
  | position, (k, d) :: rest =>
    if k = key then (position, d) :: occurrences key (position + 1) rest
    else occurrences key (position + 1) rest

/-- The part in a place or with a key. What `absent` says counts where it is missing. -/
def part (r : Record) (place : Nat) (key : String) (read : Reader α) (absent : Option α) :
    Reading α :=
  let missing (position : Nat) : Reading α :=
    match absent with
    | some a => .value a
    | none => Reading.malformed.within position
  match r with
  | .items ds =>
    match ds[place]? with
    | some d => (read d).within place
    | none => missing ds.length
  | .fields fs =>
    match occurrences key 0 fs with
    | [] => missing fs.length
    | [(position, d)] => (read d).within position
    | (position, d) :: (again, _) :: _ =>
      (fun a _ => a) <$> (read d).within position
        <*> (Reading.malformed.within again : Reading Unit)

/-- A part that has to be there. -/
def required (r : Record) (place : Nat) (key : String) (read : Reader α) : Reading α :=
  r.part place key read none

/-- A part that has a value of its own where it is missing. -/
def defaulting (r : Record) (place : Nat) (key : String) (absent : α) (read : Reader α) :
    Reading α :=
  r.part place key read (some absent)

end Record

namespace Reader

variable {α : Type}

/-- A record of `count` parts: an object, or an array with no more items than that. -/
def record (count : Nat) (build : Record → Reading α) : Reader α
  | .object fields => build (.fields fields)
  | .broken fields =>
    (fun a _ => a) <$> build (.fields fields)
      <*> (Reading.malformed.within fields.length : Reading Unit)
  | .array items =>
    let ends : Reading Unit :=
      if items.length ≤ count then .value () else Reading.malformed.within count
    (fun a _ => a) <$> build (.items items) <*> ends
  | _ => .malformed

/-- One of several cases that carry nothing: its name, or an object whose only key is the name. The
value of that key is an empty one; which values are empty depends on the language of the
document. -/
def choice (isEmpty : Document → Bool) (cases : List (String × α)) : Reader α
  | .text name => named name
  | .object [(name, payload)] =>
    if isEmpty payload then named name else .malformed
  | _ => .malformed
where
  /-- The case of a name. -/
  named (name : String) : Reading α :=
    match cases.find? fun c => c.1 == name with
    | some c => .value c.2
    | none => .malformed

/-- One of several cases that carry a value: an object whose only key is the name of the case. -/
def variant (delivery : Delivery) (cases : List (String × Reader α)) : Reader α
  | .object [(name, payload)] => named name payload
  | .object ((name, payload) :: _) => (fun a _ => a) <$> named name payload <*> delivery.secondKey
  | .broken ((name, payload) :: _) => (fun a _ => a) <$> named name payload <*> delivery.secondKey
  | _ => .malformed
where
  /-- The case of a name. -/
  named (name : String) (payload : Document) : Reading α :=
    match cases.find? fun c => c.1 == name with
    | some c => (c.2 payload).within 0
    | none => Reading.malformed.within 0

end Reader

/-- The empty value of JSON. -/
def Document.isNull : Document → Bool
  | null => true
  | _ => false

/-- The empty values of TOML. -/
def Document.isEmpty : Document → Bool
  | array [] => true
  | object [] => true
  | _ => false

end AnnotatedLogic
