import AnnotatedLogic.Reasoner.Basic
/-!
# One timestep

A timestep resets what is not static, asserts the facts of the time, commits the firings that are
due, iterates the rules without delay up to a fixed point, and schedules the rules with a delay.

* A *stage* reads the interpretation once and lists its effects; they are then carried out without
  another look. Each immediate rule is a stage of its own, and all other rules without delay
  together are one.
* `iterate`: the stages of one iteration. `fixpoint`: iterations until the criterion holds or the
  limit is reached.
* `timestep`: all of it. A conflict that the policy does not let pass stops the timestep where it
  is; the firings that were due by then are spent.
-/

namespace AnnotatedLogic

/-- Work planned on one reading of the interpretation. -/
abbrev Stage := Interpretation → List Effect

namespace Work

/-- Carries out a stage. -/
def performStage (config : Config) (pairing : Pairing) (w : Work) (stage : Stage) :
    Work × Option Halt :=
  w.performAll config pairing (stage w.interpretation)

end Work

/-- The effects of a rule, wherever it applies. -/
def Rule.stage (r : Rule) (config : Config) (t iteration : Nat) : Stage := fun i =>
  (r.ground i config).flatMap (r.effects t iteration)

/-- Whether a rule takes part in the common stage of an iteration. -/
def Rule.isInstant (r : Rule) : Bool := !r.immediate && r.delay == 0

namespace Reasoner

/-- The facts of a timestep, those from attributes of the graph first. -/
def activeFacts (r : Reasoner) (t : Nat) : List Fact :=
  (r.facts.filter (·.fromAttribute) ++ r.facts.filter (!·.fromAttribute)).filter (·.isActive t)

/-- The stages of one iteration. -/
def stages (r : Reasoner) (t iteration : Nat) : List Stage :=
  (r.rules.filter (·.immediate)).map (·.stage r.config t iteration)
    ++ [fun i => (r.rules.filter (·.isInstant)).flatMap fun rule => rule.stage r.config t iteration i]

/-- One iteration of the rules without delay. -/
def iterate (r : Reasoner) (t iteration : Nat) (w : Work) : Work × Option Halt :=
  foldUntil (Work.performStage r.config r.pairing) w (r.stages t iteration)

/-- Iterations of the rules without delay, until the criterion holds of one or `more` have followed
the first. The criterion looks at one iteration; the progress of all is added up. -/
def fixpoint (r : Reasoner) (t : Nat) (more : Nat) (iteration : Nat) (w : Work) :
    Work × Option Halt :=
  match r.iterate t iteration { w with progress := .nothing } with
  | (done, halt) =>
    let total := { done with progress := w.progress.merge done.progress }
    match halt with
    | some halt => (total, some halt)
    | none =>
      if done.progress.converged r.config.convergence then (total, none)
      else
        match more with
        | 0 => (total, none)
        | more + 1 => r.fixpoint t more (iteration + 1) total

/-- The firings of the rules with a delay, read off an interpretation at a timestep. -/
def delayedFirings (r : Reasoner) (t : Nat) (i : Interpretation) : List Firing :=
  (r.rules.filter (·.delay != 0)).flatMap fun rule =>
    (rule.ground i r.config).map fun g => ⟨t + rule.delay, rule, g⟩

/-- The effects of the firings that are due at a timestep. -/
def dueEffects (r : Reasoner) (t : Nat) : List Effect :=
  (r.pending.filter (·.due == t)).flatMap fun f => f.rule.effects t 0 f.grounding

/-- The state that work has led to. -/
def withWork (r : Reasoner) (w : Work) : Reasoner :=
  { r with interpretation := w.interpretation, trace := w.trace }

/-- The state that a timestep starts to work on. Nothing is reset at time `0`, nor where values
persist. -/
def startWork (r : Reasoner) (t : Nat) : Work where
  interpretation :=
    if 0 < t ∧ r.config.persistent = false then r.interpretation.reset else r.interpretation
  trace := r.trace
  progress := .nothing

/-- Computes one timestep. -/
def timestep (r : Reasoner) (t : Nat) : Reasoner × Except Halt Progress :=
  let facts := (r.activeFacts t).map (Fact.effect r.config t)
  match (r.startWork t).performAll r.config r.pairing facts with
  | (w, some halt) => (r.withWork w, .error halt)
  | (w, none) =>
    let due := r.dueEffects t
    let r := { r with pending := r.pending.filter (·.due != t) }
    match w.performAll r.config r.pairing due with
    | (w, some halt) => (r.withWork w, .error halt)
    | (w, none) =>
      match r.fixpoint t (r.config.maxIterations - 1) 1 w with
      | (w, some halt) => (r.withWork w, .error halt)
      | (w, none) =>
        let scheduled := r.delayedFirings t w.interpretation
        ({ r.withWork w with pending := r.pending ++ scheduled }, .ok w.progress)

end Reasoner

end AnnotatedLogic
