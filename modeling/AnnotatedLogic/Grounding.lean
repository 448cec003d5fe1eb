import AnnotatedLogic.Config
import AnnotatedLogic.Interpretation.Basic
import AnnotatedLogic.Rule.Basic
import AnnotatedLogic.Trace
/-!
# Groundings

Grounding finds the components to which a rule applies. It reads one interpretation and changes
nothing. The candidates of a node rule are the nodes of the graph, those of an edge rule its edges.

* `Surroundings`: what the clauses range over. For a node these are its successors and the edges to
  them; for an edge, its two ends and the edges that leave its target.
* `Clause.evaluate`: the members that qualify, if there are enough for the threshold.
* `groundAt`: the grounding at one candidate, if the rule applies there.
* `gather`: the candidates may be looked at in any order of workers; every result goes into the
  slot of its candidate, so the list of groundings is in the order of the graph.
-/

namespace AnnotatedLogic

/-- An application of a rule to a component. -/
structure Grounding where
  component : Component
  /-- The bound to assert. -/
  bound : Interval
  /-- Edges to add. If there are any, the bound is asserted of them and not of the component. -/
  edges : List Edge
  /-- The members that qualify for each clause, if changes are traced. -/
  support : List Support
deriving DecidableEq

/-- What the clauses of a rule range over at a component. -/
structure Surroundings where
  nodes : List Node
  edges : List Edge
deriving DecidableEq

/-- What the clauses of a rule range over at a component. -/
def Graph.surroundings (g : Graph) : Component → Surroundings
  | .node n => ⟨g.successors n, g.outEdges n⟩
  | .edge e => ⟨[e.source, e.target], g.outEdges e.target⟩

/-- What a clause has found at a component. -/
structure Finding where
  matched : Matched
  support : Support
deriving DecidableEq

namespace Clause

/-- The interval of a member that qualifies: the member has the label and its interval lies within
the bound. -/
def qualifying? (c : Clause) (i : Interpretation) (member : Component) : Option Interval :=
  (i.bound? member c.label).filter fun v => decide (c.bound.Contains v)

/-- The members that count. -/
def population {α : Type} (c : Clause) (i : Interpretation) (component : α → Component)
    (members : List α) : List α :=
  match c.threshold.subset with
  | .total => members
  | .available => members.filter fun m => i.isAvailable (component m) c.label

/-- The members that qualify and their intervals, if the threshold is met. -/
def select {α : Type} (c : Clause) (i : Interpretation) (component : α → Component)
    (members : List α) : Option (List α × Matched) :=
  let population := c.population i component members
  let found := population.filterMap fun m => (c.qualifying? i (component m)).map (m, ·)
  if c.threshold.isSatisfied population.length found.length then
    some (found.map (·.1), ⟨found.map (·.2), population.length⟩)
  else none

/-- What the clause finds, if the threshold is met. -/
def evaluate (c : Clause) (i : Interpretation) (s : Surroundings) : Option Finding :=
  match c.kind with
  | .node => (c.select i .node s.nodes).map fun (members, m) => ⟨m, .nodes members⟩
  | .edge => (c.select i .edge s.edges).map fun (members, m) => ⟨m, .edges members⟩

end Clause

/-- What all clauses find. One clause whose threshold is not met is enough for there to be no
grounding. -/
def evaluateAll (i : Interpretation) (s : Surroundings) : List Clause → Option (List Finding)
  | [] => some []
  | c :: cs =>
    match c.evaluate i s with
    | none => none
    | some finding => (evaluateAll i s cs).map (finding :: ·)

namespace Endpoint

/-- The nodes that an endpoint stands for at a node. -/
def nodes (n : Node) (findings : List Finding) : Endpoint → List Node
  | target => [n]
  | clause index =>
    match findings[index]? with
    | some finding => finding.support.nodeList
    | none => []

end Endpoint

/-- The edges to add at a node: from every source to every target, loops left out. -/
def EdgeInference.edges (inference : EdgeInference) (n : Node) (findings : List Finding) :
    List Edge :=
  let sources := inference.source.nodes n findings
  let targets := inference.target.nodes n findings
  (sources.flatMap fun s => targets.map fun t => ⟨s, t⟩).filter fun e => !e.isLoop

namespace Rule

/-- Whether a world satisfies the criteria for the component itself. -/
def meetsCriteria (r : Rule) (w : World) : Bool :=
  r.criteria.all fun (label, bound) => w.satisfies label bound

/-- The bound that the rule asserts. -/
def headBound (r : Rule) (findings : List Finding) : Interval :=
  match r.head with
  | .bound bound => bound
  | .computed f =>
    let (weights, bias) := r.weighting
    f.apply (findings.map (·.matched)) weights bias

/-- The edges that the rule adds at a component, if it adds edges there at all. Only nodes get
edges. -/
def inferred? (r : Rule) (c : Component) (findings : List Finding) : Option (List Edge) :=
  match c, r.inference with
  | .node n, some inference => some (inference.edges n findings)
  | _, _ => none

/-- Whether the rule adds edges at a component instead of changing it. -/
def infersAt (r : Rule) : Component → Bool
  | .node _ => r.inference.isSome
  | .edge _ => false

/-- Whether the component itself admits the rule: it meets the criteria, and the label is not
frozen, unless the rule is about new edges. -/
def admits (r : Rule) (c : Component) (w : World) : Bool :=
  r.meetsCriteria w && (r.infersAt c || !w.isStatic r.target)

/-- The grounding that the findings of the clauses make at a component. A rule that adds edges has
none where there is no edge to add. -/
def groundingOf (r : Rule) (atomTrace : Bool) (c : Component) (findings : List Finding) :
    Option Grounding :=
  let grounding (edges : List Edge) : Grounding :=
    ⟨c, r.headBound findings, edges, if atomTrace then findings.map (·.support) else []⟩
  match r.inferred? c findings with
  | none => some (grounding [])
  | some [] => none
  | some edges => some (grounding edges)

/-- The grounding of the rule at a candidate, if the rule applies there. -/
def groundAt (r : Rule) (i : Interpretation) (atomTrace : Bool) (c : Component) :
    Option Grounding :=
  match i.world? c with
  | none => none
  | some w =>
    if r.admits c w then
      (evaluateAll i (i.graph.surroundings c) r.clauses).bind (r.groundingOf atomTrace c)
    else none

/-- The components that the rule may apply to. -/
def candidates (r : Rule) (g : Graph) : List Component :=
  match r.kind with
  | .node => g.nodes.map .node
  | .edge => g.edges.map .edge

end Rule

/-! ## The order of looking at candidates -/

/-- The places of `n` candidates, worker after worker; worker `k` of `workers` takes every
candidate whose place leaves the remainder `k`. -/
def workerOrder (workers n : Nat) : List Nat :=
  (List.range workers).flatMap fun k => (List.range n).filter fun place => place % workers == k

/-- Looks at candidates in a given order of places, each result going into the slot of its
candidate, and reads the slots from the first to the last. -/
def gatherInOrder {α β : Type} (f : α → Option β) (candidates : Array α) (order : List Nat) :
    List β :=
  let slots := order.foldl
    (fun slots place =>
      match candidates[place]? with
      | some c => slots.setIfInBounds place (f c)
      | none => slots)
    (Array.replicate candidates.size none)
  slots.toList.filterMap id

/-- How many workers share `n` candidates: as many as asked for, `4` if no number is given, but at
least one and no more than there are candidates. -/
def workerCount (threads : Option Nat) (n : Nat) : Nat :=
  max 1 (min (threads.getD 4) n)

/-- The results at the candidates, in their order. -/
def gather {α β : Type} (execution : Execution) (threads : Option Nat) (f : α → Option β)
    (candidates : List α) : List β :=
  match execution with
  | .sequential => candidates.filterMap f
  | .parallel =>
    let n := candidates.length
    gatherInOrder f candidates.toArray (workerOrder (workerCount threads n) n)

/-- The groundings of a rule, in the order of the graph. -/
def Rule.ground (r : Rule) (i : Interpretation) (config : Config) : List Grounding :=
  gather config.execution config.threads (r.groundAt i config.atomTrace) (r.candidates i.graph)

end AnnotatedLogic
