import AnnotatedLogic.Reasoner.Timestep
/-!
# Runs

A run computes one timestep after the other up to its horizon. It ends early when nothing is
pending and the last timestep has settled, and it stops at a conflict under the abort policy.

* `hasPending`: whether a fact or a firing is still to come up to the horizon.
* `reason`: a run over as many timesteps as the configuration says.
* `reasonAgain`: a run over further timesteps, with further facts.

A timestep that was stopped is not completed, so the next run computes it again.
-/

namespace AnnotatedLogic

/-- Whether the fact is asserted for the first time, or once more although it is not static, after
`t` and up to `horizon`. -/
def Fact.isPending (f : Fact) (t horizon : Nat) : Bool :=
  let first := max f.tLower (t + 1)
  decide (first ≤ horizon) &&
    (decide (t < f.tLower) ||
      match f.lastTime? with
      | some last => decide (first ≤ last)
      | none => false)

namespace Reasoner

/-- Whether a fact or a firing is to come after `t` and up to `horizon`. -/
def hasPending (r : Reasoner) (t horizon : Nat) : Bool :=
  r.facts.any (·.isPending t horizon)
    || r.pending.any fun f => decide (t < f.due ∧ f.due ≤ horizon)

/-- Records that a timestep is completed. -/
def complete (r : Reasoner) (t : Nat) : Reasoner :=
  { r with
    atomCounts := r.atomCounts.push r.interpretation.atomCount
    history :=
      if r.config.retainHistory then r.history.push (r.interpretation.snapshot t) else r.history
    nextTime := t + 1 }

/-- Computes timestep `t` and up to `more` after it. The answer is whether the run ended before
its horizon. -/
def runFrom (r : Reasoner) (more t : Nat) : Reasoner × Except Halt Bool :=
  match r.timestep t with
  | (r, .error halt) => (r, .error halt)
  | (r, .ok progress) =>
    let r := r.complete t
    match more with
    | 0 => (r, .ok false)
    | more + 1 =>
      if !r.hasPending t (t + more + 1) && progress.settled r.config.convergence then
        (r, .ok true)
      else r.runFrom more (t + 1)

/-- A run from the next timestep on, over `more` timesteps after it. -/
def run (r : Reasoner) (more : Nat) : Reasoner × Except Error Report :=
  match r.runFrom more r.nextTime with
  | (r, .ok early) => (r, .ok (r.report early none))
  | (r, .error (.conflict c)) => (r, .ok (r.report false (some c)))
  | (r, .error (.failure e)) => (r, .error e)

/-- Reasons over the timesteps of the configuration, from the next one on. -/
def reason (r : Reasoner) : Reasoner × Except Error Report :=
  r.run r.config.timesteps

/-- Reasons over `extra` further timesteps with further facts, whose windows count from the next
timestep. Over no timestep at all, nothing is computed. -/
def reasonAgain (r : Reasoner) (extra : Nat) (facts : List Fact) :
    Reasoner × Except Error Report :=
  match r.addFacts facts with
  | (r, some error) => (r, .error error)
  | (r, none) =>
    match extra with
    | 0 => (r, .ok (r.report false none))
    | more + 1 => r.run more

end Reasoner

end AnnotatedLogic
