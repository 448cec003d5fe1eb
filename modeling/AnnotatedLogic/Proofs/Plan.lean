import AnnotatedLogic.Proofs.Gathering
import AnnotatedLogic.Proofs.Timestep
/-!
# Plans

A plan is the part of a configuration that says how far a run goes and how the candidates of a rule
are shared out. It has no say in what a timestep computes.

* `iterate_withConfig`: what an iteration reads of a configuration.
* `timestep_withPlan`: a timestep under another plan does the same and keeps the plan.
* `runFrom_withPlan`, `run_withPlan`: so does a run over a given number of timesteps.
-/

namespace AnnotatedLogic

/-- How far a run goes and how it looks at candidates. -/
structure Plan where
  timesteps : Nat
  execution : Execution
  threads : Option Nat

/-- The same configuration with another plan. -/
def Config.withPlan (c : Config) (p : Plan) : Config :=
  { c with timesteps := p.timesteps, execution := p.execution, threads := p.threads }

theorem Rule.ground_withPlan (r : Rule) (i : Interpretation) (c : Config) (p : Plan) :
    r.ground i (c.withPlan p) = r.ground i c := by
  rw [Rule.ground_eq, Rule.ground_eq]
  rfl

namespace Reasoner

/-- An iteration is the same under a configuration under which rules apply alike and effects do the
same. -/
theorem iterate_withConfig (r : Reasoner) {c : Config}
    (hground : ∀ (rule : Rule) (i : Interpretation), rule.ground i c = rule.ground i r.config)
    (hperform : Work.perform c r.pairing = Work.perform r.config r.pairing) (t iteration : Nat)
    (w : Work) : iterate { r with config := c } t iteration w = r.iterate t iteration w := by
  have hstage (rule : Rule) : rule.stage c t iteration = rule.stage r.config t iteration := by
    funext i
    unfold Rule.stage
    rw [hground]
  have hstages : stages { r with config := c } t iteration = r.stages t iteration := by
    unfold stages
    simp only [hstage]
  have hperformStage : Work.performStage c r.pairing = Work.performStage r.config r.pairing := by
    unfold Work.performStage Work.performAll
    rw [hperform]
  unfold iterate
  rw [hstages]
  dsimp only
  rw [hperformStage]

/-- The same reasoner with another plan. -/
def withPlan (r : Reasoner) (p : Plan) : Reasoner := { r with config := r.config.withPlan p }

theorem iterate_withPlan (r : Reasoner) (p : Plan) (t iteration : Nat) (w : Work) :
    (r.withPlan p).iterate t iteration w = r.iterate t iteration w :=
  r.iterate_withConfig (fun rule i => rule.ground_withPlan i r.config p) rfl t iteration w

theorem fixpoint_withPlan (r : Reasoner) (p : Plan) (t more iteration : Nat) (w : Work) :
    (r.withPlan p).fixpoint t more iteration w = r.fixpoint t more iteration w :=
  fixpoint_congr (r.iterate_withPlan p t) (fun _ => rfl) more iteration w

theorem delayedFirings_withPlan (r : Reasoner) (p : Plan) (t : Nat) (i : Interpretation) :
    (r.withPlan p).delayedFirings t i = r.delayedFirings t i := by
  have hground (rule : Rule) : rule.ground i (r.config.withPlan p) = rule.ground i r.config :=
    rule.ground_withPlan ..
  unfold delayedFirings withPlan
  simp only [hground]

/-- A timestep under another plan ends in the same way. -/
theorem Passage.withPlan {r : Reasoner} {t : Nat} {result : Reasoner × Except Halt Progress}
    (h : r.Passage t result) (p : Plan) :
    (r.withPlan p).Passage t (result.1.withPlan p, result.2) := by
  cases h with
  | facts hfacts => exact .facts hfacts
  | due hfacts hdue => exact .due (r := r.withPlan p) hfacts hdue
  | loop hfacts hdue hloop =>
    rw [← r.fixpoint_withPlan p] at hloop
    exact .loop (r := r.withPlan p) hfacts hdue hloop
  | @completed u v w hfacts hdue hloop =>
    rw [← r.fixpoint_withPlan p] at hloop
    have hdone := Passage.completed (r := r.withPlan p) hfacts hdue hloop
    rw [delayedFirings_withPlan] at hdone
    exact hdone

/-- A timestep under another plan does the same and keeps the plan. -/
theorem timestep_withPlan (r : Reasoner) (p : Plan) (t : Nat) :
    (r.withPlan p).timestep t = ((r.timestep t).1.withPlan p, (r.timestep t).2) :=
  ((r.timestep_passage t).withPlan p).eq

/-- A run over a given number of timesteps does not look at the plan. -/
theorem runFrom_withPlan (r : Reasoner) (p : Plan) (more t : Nat) :
    (r.withPlan p).runFrom more t = ((r.runFrom more t).1.withPlan p, (r.runFrom more t).2) := by
  induction more generalizing r t with
  | zero =>
    unfold runFrom
    rw [timestep_withPlan]
    rcases r.timestep t with ⟨s, halt | progress⟩ <;> rfl
  | succ more ih =>
    unfold runFrom
    rw [timestep_withPlan]
    rcases r.timestep t with ⟨s, halt | progress⟩
    · rfl
    · have hcomplete : (s.withPlan p).complete t = (s.complete t).withPlan p := rfl
      have hpending (horizon : Nat) :
          ((s.complete t).withPlan p).hasPending t horizon = (s.complete t).hasPending t horizon :=
        rfl
      have hconvergence :
          ((s.complete t).withPlan p).config.convergence = (s.complete t).config.convergence := rfl
      dsimp only
      rw [hcomplete, hpending, hconvergence]
      split
      · rfl
      · exact ih ..

theorem run_withPlan (r : Reasoner) (p : Plan) (more : Nat) :
    (r.withPlan p).run more = ((r.run more).1.withPlan p, (r.run more).2) := by
  have hnext : (r.withPlan p).nextTime = r.nextTime := rfl
  unfold run
  rw [hnext, runFrom_withPlan]
  rcases r.runFrom more r.nextTime with ⟨s, (c | e) | early⟩ <;> rfl

/-- A change of the reasoner in which facts have no part goes well with adding facts. -/
theorem addFacts_comm {f : Reasoner → Reasoner} (hnext : ∀ r, (f r).nextTime = r.nextTime)
    (hadd : ∀ r fact, (f r).addFact fact = (r.addFact fact).map f) (r : Reasoner)
    (facts : List Fact) : (f r).addFacts facts = (f (r.addFacts facts).1, (r.addFacts facts).2) := by
  induction facts generalizing r with
  | nil => rfl
  | cons fact facts ih =>
    unfold addFacts
    rw [hnext, hadd]
    cases r.addFact (fact.shift r.nextTime) with
    | error error => rfl
    | ok s => exact ih s

theorem addFacts_withPlan (r : Reasoner) (p : Plan) (facts : List Fact) :
    (r.withPlan p).addFacts facts = ((r.addFacts facts).1.withPlan p, (r.addFacts facts).2) := by
  refine addFacts_comm (f := (·.withPlan p)) (fun _ => rfl) (fun r fact => ?_) r facts
  unfold addFact
  cases fact.validate <;> rfl

theorem reasonAgain_withPlan (r : Reasoner) (p : Plan) (extra : Nat) (facts : List Fact) :
    (r.withPlan p).reasonAgain extra facts
      = ((r.reasonAgain extra facts).1.withPlan p, (r.reasonAgain extra facts).2) := by
  unfold reasonAgain
  rw [addFacts_withPlan]
  rcases r.addFacts facts with ⟨s, _ | error⟩
  · cases extra with
    | zero => rfl
    | succ more => exact s.run_withPlan p more
  · rfl

end Reasoner

end AnnotatedLogic
