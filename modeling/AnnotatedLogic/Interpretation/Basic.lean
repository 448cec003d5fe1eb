import AnnotatedLogic.Graph
import AnnotatedLogic.Interpretation.PredicateMap
import AnnotatedLogic.Table
import AnnotatedLogic.World
/-!
# Interpretations

An interpretation gives every component of a graph a world. It also keeps a log of the changes
since the last reset, by label, which tells the members of a clause's population that are
available.

* `ofGraph`: the worlds start out with the labels of a labelling, which say nothing.
* `bound?`, `satisfies`: what the interpretation says of an atom.
* `addEdge`: a new edge gets a world of its own; an edge that is there keeps the one it has.
* `reset`: start of a timestep. Values that are not static become unknown, and the log starts again
  with the static atoms.
* `snapshot`: all atoms, nodes before edges, in the order of the graph and then of the label names.
-/

namespace AnnotatedLogic

/-- One atom with its truth value. -/
structure Atom where
  component : Component
  label : Label
  bound : Interval
deriving DecidableEq

/-- All atoms at one timestep. -/
structure Snapshot where
  time : Nat
  atoms : List Atom
deriving DecidableEq

/-- The interval of an atom, if the snapshot has the atom. -/
def Snapshot.bound? (s : Snapshot) (component : Component) (label : Label) : Option Interval :=
  (s.atoms.find? fun a => decide (a.component = component ∧ a.label = label)).map (·.bound)

/-- A graph, a world for each component, and the changes since the last reset. -/
structure Interpretation where
  graph : Graph
  labelling : Labelling
  worlds : Table Component World
  /-- The log of the changes since the last reset. -/
  predicates : PredicateMap
deriving DecidableEq

namespace Interpretation

/-- The interpretation of a graph in which nothing is known yet. -/
def ofGraph (graph : Graph) (labelling : Labelling) : Interpretation where
  graph := graph
  labelling := labelling
  worlds := .ofList (graph.components.map fun c => (c, .ofLabels (labelling.forComponent c)))
  predicates := .empty

/-- The world of a component. -/
def world? (i : Interpretation) (c : Component) : Option World := i.worlds.get? c

/-- The interval of an atom, if the component has the label. -/
def bound? (i : Interpretation) (c : Component) (label : Label) : Option Interval :=
  (i.world? c).bind fun w => w.get? label

/-- Whether an atom is there and its interval lies within a bound. -/
def satisfies (i : Interpretation) (c : Component) (label : Label) (bound : Interval) : Bool :=
  match i.world? c with
  | some w => w.satisfies label bound
  | none => false

/-- How many atoms there are. -/
def atomCount (i : Interpretation) : Nat := (i.worlds.values.flatMap World.entries).length

/-- Gives a component another world. -/
def putWorld (i : Interpretation) (c : Component) (w : World) : Interpretation :=
  { i with worlds := i.worlds.put c w }

/-- Logs a change. -/
def log (i : Interpretation) (c : Component) (label : Label) : Interpretation :=
  { i with predicates := i.predicates.push c label }

/-- Whether an atom has changed since the last reset. -/
def isAvailable (i : Interpretation) (c : Component) (label : Label) : Bool :=
  i.predicates.contains c label

/-- The components of a kind whose atom for a label has changed, once for each change. -/
def changed (i : Interpretation) (kind : ComponentKind) (label : Label) : List Component :=
  i.predicates.get kind label

/-- The labels that have changed on a component of a kind, in the order of their names. -/
def changedLabels (i : Interpretation) (kind : ComponentKind) : List Label :=
  (World.ofLabels (i.predicates.labels kind)).entries.map (·.1)

/-- Adds an edge between nodes of the graph, with a world that starts out like that of any edge.
An edge that is there keeps its world. -/
def addEdge (i : Interpretation) (e : Edge) : Except Error Interpretation :=
  if i.graph.hasEdge e then .ok i
  else
    match i.graph.addEdge e with
    | .ok graph =>
      .ok ({ i with graph := graph }.putWorld (.edge e) (.ofLabels (i.labelling.forEdge e)))
    | .error error => .error error

/-- The atoms of a component, in the order of the label names. -/
def atomsOf (i : Interpretation) (c : Component) : List Atom :=
  match i.world? c with
  | some w => w.entries.map fun e => ⟨c, e.1, e.2⟩
  | none => []

/-- All atoms, in the order of the components and then of the label names. -/
def atoms (i : Interpretation) : List Atom := i.graph.components.flatMap i.atomsOf

/-- All atoms, as the state of a timestep. -/
def snapshot (i : Interpretation) (t : Nat) : Snapshot := ⟨t, i.atoms⟩

/-- Start of a timestep. -/
def reset (i : Interpretation) : Interpretation :=
  let i := { i with worlds := i.worlds.mapValues World.reset }
  let static := i.atoms.filter fun a => a.bound.isStatic
  { i with predicates := i.predicates.clear.pushAll (static.map fun a => (a.component, a.label)) }

end Interpretation

end AnnotatedLogic
