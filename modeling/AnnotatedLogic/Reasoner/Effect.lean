import AnnotatedLogic.Fact
import AnnotatedLogic.Grounding
import AnnotatedLogic.Reasoner.Progress
import AnnotatedLogic.Until
/-!
# Effects

What facts and groundings do to an interpretation comes down to a list of effects: an edge is added
or a bound is asserted. They are carried out one after the other, up to a contradiction that the
policy does not let pass.

* `Fact.effect`, `Rule.effects`: the effects of a fact and of a grounding. A grounding adds all its
  edges first.
* `Work.perform`, `Work.performAll`: the effects carried out, on the state that a timestep works on.
-/

namespace AnnotatedLogic

/-- One step of work on an interpretation. -/
inductive Effect where
  /-- Sees to it that there is an edge. -/
  | link (e : Edge)
  /-- Asserts a bound. -/
  | assert (a : Assertion)
deriving DecidableEq

/-- Why work stops early. -/
inductive Halt where
  | conflict (c : Conflict)
  | failure (e : Error)
deriving DecidableEq

/-- The assertion that a fact makes at a timestep. A component that does not exist is passed
over. -/
def Fact.effect (config : Config) (t : Nat) (f : Fact) : Effect :=
  .assert
    { component := f.target
      label := f.label
      bound := f.bound
      time := t
      iteration := 0
      source := if f.fromAttribute then .graphAttribute else .fact
      name := f.name
      isStatic := f.isStatic
      replaces := decide (config.factMode = .override)
      missing := .ignore
      support := [] }

/-- The assertion that a grounding makes of one atom. -/
def Rule.assertion (r : Rule) (g : Grounding) (t iteration : Nat) (component : Component)
    (label : Label) (bound : Interval) : Assertion where
  component := component
  label := label
  bound := bound
  time := t
  iteration := iteration
  source := .rule
  name := r.name
  isStatic := r.isStatic
  replaces := false
  missing := .error
  support := g.support

/-- What a grounding asserts of an edge that it adds: certainty of the marker label, if the rule has
one, and then the head. -/
def Rule.edgeAssertions (r : Rule) (g : Grounding) (t iteration : Nat) (e : Edge) :
    List Assertion :=
  let marker := match r.inference.bind (·.label) with
    | some label => [r.assertion g t iteration (.edge e) label .certain]
    | none => []
  marker ++ [r.assertion g t iteration (.edge e) r.target g.bound]

/-- The effects of a grounding. -/
def Rule.effects (r : Rule) (t iteration : Nat) (g : Grounding) : List Effect :=
  match g.edges with
  | [] => [.assert (r.assertion g t iteration g.component r.target g.bound)]
  | edges =>
    edges.map .link ++ (edges.flatMap (r.edgeAssertions g t iteration)).map .assert

/-- The state that a timestep works on. -/
structure Work where
  interpretation : Interpretation
  trace : Trace
  progress : Progress
deriving DecidableEq

namespace Work

/-- Carries out one effect. What an assertion did is traced also when its conflict stops the
work, but only work that goes on makes progress. -/
def perform (config : Config) (pairing : Pairing) : Work → Effect → Work × Option Halt
  | ⟨i, trace, progress⟩, .link e =>
    match i.addEdge e with
    | .ok i => (⟨i, trace, progress⟩, none)
    | .error error => (⟨i, trace, progress⟩, some (.failure error))
  | ⟨i, trace, progress⟩, .assert a =>
    match i.assert config pairing a with
    | .error error => (⟨i, trace, progress⟩, some (.failure error))
    | .ok ⟨i, outcome, entries⟩ =>
      match outcome.refusal? with
      | some conflict => (⟨i, trace ++ entries, progress⟩, some (.conflict conflict))
      | none => (⟨i, trace ++ entries, progress.absorb outcome⟩, none)

/-- Carries out effects up to the first that stops the work. -/
def performAll (config : Config) (pairing : Pairing) (w : Work) (effects : List Effect) :
    Work × Option Halt :=
  foldUntil (perform config pairing) w effects

end Work

end AnnotatedLogic
