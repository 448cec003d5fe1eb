import AnnotatedLogic.Component
/-!
# Labels

A label names a property of a component; together they make a ground atom. `Labelling` says which
labels a component starts out with.

* `Labelling.forNode`, `Labelling.forEdge`: the labels given to all components of the kind, then
  those given to this one by name. A label that is given twice is listed twice.
* `NameTable`: the different label and node names met so far.
-/

namespace AnnotatedLogic

/-- The name of a property that a component may have. -/
structure Label where
  name : String
deriving DecidableEq, Inhabited

/-- The labels that components start out with. Labels in `node` and `edge` go to every component of
the kind, also to an edge that a rule adds later; the others only to the components listed. -/
structure Labelling where
  node : List Label := []
  edge : List Label := []
  specificNode : List (Label × List Node) := []
  specificEdge : List (Label × List Edge) := []
deriving DecidableEq, Inhabited

namespace Labelling

/-- The labels of the entries that list a component. -/
def listing {α : Type} [DecidableEq α] (c : α) (entries : List (Label × List α)) : List Label :=
  (entries.filter fun entry => entry.2.contains c).map (·.1)

/-- The labels that a node starts out with. -/
def forNode (l : Labelling) (n : Node) : List Label :=
  l.node ++ listing n l.specificNode

/-- The labels that an edge starts out with. -/
def forEdge (l : Labelling) (e : Edge) : List Label :=
  l.edge ++ listing e l.specificEdge

/-- The labels that a component starts out with. -/
def forComponent (l : Labelling) : Component → List Label
  | .node n => l.forNode n
  | .edge e => l.forEdge e

end Labelling

/-- The different names met so far. Labels and nodes are two separate spaces of names. -/
structure NameTable where
  labels : List Label := []
  nodes : List Node := []
deriving DecidableEq, Inhabited

namespace NameTable

/-- Enters a label, unless it is there. -/
def addLabel (t : NameTable) (l : Label) : NameTable :=
  { t with labels := t.labels.insert l }

/-- Enters a node, unless it is there. -/
def addNode (t : NameTable) (n : Node) : NameTable :=
  { t with nodes := t.nodes.insert n }

/-- Enters the nodes that a component is made of. -/
def addComponent (t : NameTable) : Component → NameTable
  | .node n => t.addNode n
  | .edge e => (t.addNode e.source).addNode e.target

end NameTable

end AnnotatedLogic
