import AnnotatedLogic.Reasoner.Run
/-!
# Programs

A program is everything that a run needs beside its configuration: a graph, the labels that
components start out with, opposite labels, facts and rules.

* `GraphOutline.build`: the graph of an outline. `GraphOutline.attributeFacts`: its attributes as
  static facts.
* `Program.names`: the different names that a program mentions.
* `Program.toReasoner`: a reasoner that holds the program, or the first error in it.
-/

namespace AnnotatedLogic

/-- A value that the graph gives to a component for all time. -/
structure GraphAttribute where
  component : Component
  label : Label
  bound : Interval
deriving DecidableEq

/-- A graph as it is described: its nodes and edges, and what is known of them from the start. -/
structure GraphOutline where
  nodes : List Node := []
  edges : List Edge := []
  /-- Whether an edge goes one way only. -/
  directed : Bool := true
  /-- Whether every edge is turned around. -/
  reverse : Bool := false
  attributes : List GraphAttribute := []
deriving DecidableEq, Inhabited

/-- A program. -/
structure Program where
  graph : GraphOutline := {}
  labels : Labelling := {}
  pairing : Pairing := {}
  facts : List Fact := []
  rules : List Rule := []
deriving DecidableEq, Inhabited

/-- The graph of an outline. -/
def GraphOutline.build (g : GraphOutline) : Graph :=
  .build g.nodes g.edges g.directed g.reverse

/-- An attribute as a static fact, named after its atom. -/
def GraphAttribute.toFact (a : GraphAttribute) : Fact where
  name := a.component.text ++ "-" ++ a.label.name
  target := a.component
  label := a.label
  bound := a.bound
  tLower := 0
  tUpper := 0
  isStatic := true
  fromAttribute := true

/-- The attributes of a graph as facts. -/
def GraphOutline.attributeFacts (g : GraphOutline) : List Fact :=
  g.attributes.map GraphAttribute.toFact

namespace Program

/-- The nodes and labels that the graph of a program mentions. -/
def graphNames (p : Program) : List Component × List Label :=
  (p.graph.nodes.map .node ++ p.graph.edges.map .edge ++ p.graph.attributes.map (·.component),
    p.graph.attributes.map (·.label))

/-- The labels that a rule mentions. -/
def ruleLabels (r : Rule) : List Label :=
  [r.target] ++ r.criteria.map (·.1) ++ r.clauses.map (·.label)
    ++ (r.inference.bind (·.label)).toList

/-- The different names that the graph, the facts and the rules of a program mention. -/
def names (p : Program) : NameTable :=
  let (components, labels) := p.graphNames
  let components := components ++ p.facts.map (·.target)
  let labels := labels ++ p.facts.map (·.label) ++ p.rules.flatMap ruleLabels
  labels.foldl .addLabel (components.foldl .addComponent {})

/-- Adds facts and then rules to a reasoner, up to the first that is invalid. -/
def load (r : Reasoner) (facts : List Fact) (rules : List Rule) : Except Error Reasoner :=
  match facts.foldlM Reasoner.addFact r with
  | .error error => .error error
  | .ok r => rules.foldlM Reasoner.addRule r

/-- A reasoner that holds a program. The configuration is looked at first; the attributes of the
graph come before the other facts. -/
def toReasoner (p : Program) (config : Config) : Except Error Reasoner :=
  match Reasoner.create p.graph.build p.labels config with
  | .error error => .error error
  | .ok r => load (r.setPairing p.pairing) (p.graph.attributeFacts ++ p.facts) p.rules

end Program

end AnnotatedLogic
