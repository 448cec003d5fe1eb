import AnnotatedLogic.Component
import AnnotatedLogic.Label
import AnnotatedLogic.Table
/-!
# Components by label

Which components have changed a label since the last reset. For every label there is a list, in which
a component stands as often as it has changed, and a set, which answers whether a component is in
the list without going through it. The two are stored apart.

* `PredicateIndex`: lists and sets for the components of one kind. `push` writes both, `get` reads
  the list and `contains` the set.
* `PredicateMap`: an index of nodes and one of edges.
-/

namespace AnnotatedLogic

/-- For each label a list and a set of what has been recorded for it. -/
structure PredicateIndex (γ : Type) where
  /-- What has been recorded, in order; what is recorded twice is listed twice. -/
  entries : Table Label (Array γ)
  /-- What has been recorded, as sets. -/
  members : Table Label (Table γ Unit)
deriving DecidableEq

namespace PredicateIndex

variable {γ : Type}

/-- Nothing has been recorded. -/
def empty : PredicateIndex γ := ⟨.empty, .empty⟩

/-- Forgets what has been recorded. -/
def clear (p : PredicateIndex γ) : PredicateIndex γ := { p with entries := .empty, members := .empty }

/-- What has been recorded for a label, in order. -/
def get (p : PredicateIndex γ) (label : Label) : Array γ := (p.entries.get? label).getD #[]

/-- The labels for which something has been recorded, each once. -/
def labels (p : PredicateIndex γ) : List Label := p.entries.keys

variable [DecidableEq γ]

/-- Whether something has been recorded for a label. -/
def contains (p : PredicateIndex γ) (label : Label) (x : γ) : Bool :=
  (p.members.get? label).any fun set => (set.get? x).isSome

/-- Records something for a label. -/
def push (p : PredicateIndex γ) (label : Label) (x : γ) : PredicateIndex γ where
  members := p.members.put label (((p.members.get? label).getD .empty).put x ())
  entries := p.entries.put label (((p.entries.get? label).getD #[]).push x)

end PredicateIndex

/-- An index for each kind of component. -/
structure PredicateMap where
  nodes : PredicateIndex Node
  edges : PredicateIndex Edge
deriving DecidableEq

namespace PredicateMap

/-- Nothing has been recorded. -/
def empty : PredicateMap := ⟨.empty, .empty⟩

/-- Forgets what has been recorded. -/
def clear (m : PredicateMap) : PredicateMap := { m with nodes := m.nodes.clear, edges := m.edges.clear }

/-- Records a change of a label on a component. -/
def push (m : PredicateMap) (c : Component) (label : Label) : PredicateMap :=
  match c with
  | .node n => { m with nodes := m.nodes.push label n }
  | .edge e => { m with edges := m.edges.push label e }

/-- Records changes one after the other. -/
def pushAll (m : PredicateMap) (changes : List (Component × Label)) : PredicateMap :=
  changes.foldl (fun m change => m.push change.1 change.2) m

/-- The components of a kind that are listed for a label. -/
def get (m : PredicateMap) (kind : ComponentKind) (label : Label) : List Component :=
  match kind with
  | .node => (m.nodes.get label).toList.map .node
  | .edge => (m.edges.get label).toList.map .edge

/-- Whether a component is in the set of a label. -/
def contains (m : PredicateMap) (c : Component) (label : Label) : Bool :=
  match c with
  | .node n => m.nodes.contains label n
  | .edge e => m.edges.contains label e

/-- The labels under which components of a kind are listed. -/
def labels (m : PredicateMap) (kind : ComponentKind) : List Label :=
  match kind with
  | .node => m.nodes.labels
  | .edge => m.edges.labels

end PredicateMap

end AnnotatedLogic
