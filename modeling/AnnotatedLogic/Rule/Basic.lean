import AnnotatedLogic.Label
import AnnotatedLogic.Rule.Annotation
import AnnotatedLogic.Rule.Threshold
/-!
# Rules

A rule says: where a component meets the target criteria and each clause finds enough members that
qualify, the head bound holds of the target label, some timesteps later. A node rule may assert it
of new edges instead of the node.

* `weighting`: one weight for each clause, and the bias.
* `validate`: what a rule has to satisfy before it is used; the first fault found is reported.
-/

namespace AnnotatedLogic

/-- A condition on the neighbourhood of a component. -/
structure Clause where
  /-- Whether the clause ranges over nodes or over edges. -/
  kind : ComponentKind
  label : Label
  /-- A member qualifies when its interval for the label lies within this bound. -/
  bound : Interval
  threshold : Threshold
deriving DecidableEq

/-- How a rule comes by the bound that it asserts. -/
inductive Head where
  | bound (bound : Interval)
  | computed (f : AnnotationFunction)
deriving DecidableEq

/-- One end of the edges that a rule adds. -/
inductive Endpoint where
  /-- The node that the rule is applied to. -/
  | target
  /-- Each node that qualifies for the node clause at this place. -/
  | clause (index : Nat)
deriving DecidableEq, Inhabited

/-- The edges that a node rule adds. -/
structure EdgeInference where
  source : Endpoint
  target : Endpoint
  /-- A label that becomes certain of each of the edges. -/
  label : Option Label
deriving DecidableEq

/-- An annotated rule. -/
structure Rule where
  name : String
  /-- Whether the rule applies to nodes or to edges. -/
  kind : ComponentKind
  /-- The label that the rule asserts a bound of. -/
  target : Label
  /-- Bounds that the component itself has to satisfy. -/
  criteria : List (Label × Interval)
  /-- How many timesteps pass before the head is asserted. -/
  delay : Nat
  clauses : List Clause
  head : Head
  /-- One weight for each clause, and a bias after them. -/
  weights : List Float
  inference : Option EdgeInference
  /-- Whether the rule is applied before the others, one grounding after the other. -/
  immediate : Bool
  /-- Whether the asserted values outlive timesteps. -/
  isStatic : Bool
deriving DecidableEq

namespace Rule

/-- A rule that asserts certainty of a label one timestep later, wherever the label may be. -/
def simple (kind : ComponentKind) (name : String) (target : Label) : Rule where
  name := name
  kind := kind
  target := target
  criteria := []
  delay := 1
  clauses := []
  head := .bound .certain
  weights := []
  inference := none
  immediate := false
  isStatic := false

/-- Weights for so many clauses: those given, then `1` for each clause left. -/
def padWeights : Nat → List Float → List Float
  | 0, _ => []
  | n + 1, [] => 1 :: padWeights n []
  | n + 1, w :: ws => w :: padWeights n ws

/-- One weight for each clause, and the bias: the weight after those of the clauses, or `0`. -/
def weighting (r : Rule) : List Float × Float :=
  let n := r.clauses.length
  (padWeights n r.weights, r.weights[n]?.getD 0)

/-- The first threshold that asks for a count or fraction that cannot be, counting clauses from
`index`. -/
def thresholdFault? (index : Nat) : List Clause → Option RuleFault
  | [] => none
  | c :: cs =>
    if c.threshold.inRange then thresholdFault? (index + 1) cs
    else some (.thresholdOutOfRange index c.threshold.value c.threshold.quantifier)

/-- Whether an end of inferred edges is the node itself or refers to a node clause. -/
def endpointFault? (clauses : List Clause) : Endpoint → Option RuleFault
  | .target => none
  | .clause i =>
    match clauses[i]? with
    | some c => if c.kind = .node then none else some (.endpointNotNodeClause i)
    | none => some (.endpointNotNodeClause i)

/-- What is wrong with the edges that a rule adds. -/
def inferenceFault? (r : Rule) : Option RuleFault :=
  match r.inference with
  | none => none
  | some e =>
    if r.kind = .node then
      (endpointFault? r.clauses e.source).or (endpointFault? r.clauses e.target)
    else some .edgesFromEdgeRule

/-- Whether there are weights, but not one for each clause and at most one more. -/
def weightsMismatch (r : Rule) : Bool :=
  !r.weights.isEmpty && r.weights.length != r.clauses.length
    && r.weights.length != r.clauses.length + 1

/-- What has to hold of a rule before it is used. -/
def validate (r : Rule) : Except Error Unit :=
  if r.immediate = true ∧ r.delay ≠ 0 then .error (.invalidRule r.name (.delayedImmediate r.delay))
  else if r.weightsMismatch then
    .error (.weightMismatch r.name r.weights.length r.clauses.length)
  else
    match (thresholdFault? 0 r.clauses).or r.inferenceFault? with
    | some fault => .error (.invalidRule r.name fault)
    | none => .ok ()

end Rule

end AnnotatedLogic
