/-!
# Components of a graph

A component is what truth values are attached to: a node, or a directed edge between two nodes.
Nodes are told apart by their names.

* `Edge.reversed` turns an edge around; doing so twice gives the edge back.
* `Component.text`: a node is written as its name, an edge as `(source,target)`.
* `Component.before`: the order of components, nodes first, then by names.
-/

namespace AnnotatedLogic

/-- A node of the graph, known by its name. -/
structure Node where
  name : String
deriving DecidableEq, Inhabited

/-- A directed edge. -/
structure Edge where
  source : Node
  target : Node
deriving DecidableEq, Inhabited

/-- A node or an edge: anything that has truth values of its own. -/
inductive Component where
  | node (n : Node)
  | edge (e : Edge)
deriving DecidableEq, Inhabited

/-- Whether a rule or one of its clauses is about nodes or about edges. -/
inductive ComponentKind where
  | node
  | edge
deriving DecidableEq, Inhabited

/-- The same edge pointing the other way. -/
def Edge.reversed (e : Edge) : Edge := ⟨e.target, e.source⟩

@[simp] theorem Edge.reversed_reversed (e : Edge) : e.reversed.reversed = e := rfl

/-- An edge from a node to itself. -/
def Edge.isLoop (e : Edge) : Bool := decide (e.source = e.target)

/-- An edge in messages and rows. -/
def Edge.text (e : Edge) : String :=
  "(" ++ e.source.name ++ "," ++ e.target.name ++ ")"

namespace Component

/-- A component in messages and rows. -/
def text : Component → String
  | node n => n.name
  | edge e => e.text

/-- What a component is. -/
def kind : Component → ComponentKind
  | node _ => .node
  | edge _ => .edge

/-- The names that tell components of one kind apart, in the order in which they are compared. -/
def names : Component → List String
  | node n => [n.name]
  | edge e => [e.source.name, e.target.name]

/-- Nodes come before edges; within a kind the names decide, code point by code point. -/
def before (a b : Component) : Bool :=
  match a, b with
  | node _, edge _ => true
  | edge _, node _ => false
  | _, _ => !decide (b.names < a.names)

end Component

/-- The word for a kind. -/
def ComponentKind.word : ComponentKind → String
  | node => "node"
  | edge => "edge"

end AnnotatedLogic
