import AnnotatedLogic.Proofs.ChangeLog
import AnnotatedLogic.Proofs.Underway
/-!
# Interpretations that arise

An interpretation is made of a graph, and nothing is known of it then. Whatever it comes to hold, it comes
to hold by effects and resets, be they those of a reasoner or not.

* `Arises`: the interpretations that come about in this way.
* `Arises.fits`: their worlds belong to components.
* `Arises.inStep`: the sets of the log of changes have what its lists have.
* `Reasoner.Has.arises`: what a reasoner has between two operations arises.
-/

namespace AnnotatedLogic

namespace Interpretation

/-- A new interpretation arises, and so does what an effect or a reset makes of one that does. Each effect
may be carried out under another configuration and other opposite labels; it may be refused or fail. -/
inductive Arises : Interpretation → Prop where
  | new (graph : Graph) (labelling : Labelling) : Arises (.ofGraph graph labelling)
  | operate {w : Work} (h : Arises w.interpretation) (o : Operation) :
      Arises (w.operate o).interpretation
  | reset {i : Interpretation} (h : Arises i) : Arises i.reset

/-- The components that have worlds are those of the graph. -/
theorem Arises.fits {i : Interpretation} (h : i.Arises) : i.Fits := by
  induction h with
  | new graph labelling => exact fits_ofGraph graph labelling
  | @operate w _ o ih =>
    have hover : w.Over w.interpretation.graph := ⟨ih, .refl _⟩
    exact (hover.perform o.effect).fits
  | reset _ ih => exact ih.reset

/-- No effect and no reset writes only the lists or only the sets of the log of changes. -/
theorem Arises.inStep {i : Interpretation} (h : i.Arises) : i.predicates.InStep := by
  induction h with
  | new graph labelling => exact (Restarted.new graph labelling).inStep
  | @operate w _ o ih => exact w.inStep_operate o ih
  | @reset i _ _ => exact (Restarted.reset i).inStep

theorem Arises.operateAll {w : Work} (h : w.interpretation.Arises) (os : List Operation) :
    (w.operateAll os).interpretation.Arises := by
  induction os generalizing w with
  | nil => exact h
  | cons o os ih => exact ih (h.operate o)

end Interpretation

namespace Reasoner

open Interpretation

variable {r : Reasoner}

theorem keptByEffects_arises (r : Reasoner) :
    r.KeptByEffects (fun _ => True) fun w => w.interpretation.Arises where
  progress hw _ := hw
  perform {_ e} hw _ := hw.operate ⟨r.config, r.pairing, e⟩

theorem arises_startWork (h : r.interpretation.Arises) (t : Nat) :
    (r.startWork t).interpretation.Arises := by
  unfold startWork
  dsimp only
  split
  · exact h.reset
  · exact h

theorem arises_timestep (h : r.interpretation.Arises) (t : Nat) :
    (r.timestep t).1.interpretation.Arises := by
  obtain ⟨-, harises⟩ := timestep_invariant (r := r) (t := t) (P := fun _ i _ => i.Arises)
    (fun {_ e} _ _ hw => hw.operate ⟨r.config, r.pairing, e⟩) (fun h => h) (arises_startWork h t)
  exact harises

/-- What a reasoner holds arises, whatever it is asked. -/
theorem kept_arises (rules : Rule → Prop) (facts : Fact → Prop) :
    Kept rules facts fun r => r.interpretation.Arises where
  timestep h := arises_timestep h _
  complete {r _ _} h hs := by
    have hstep := arises_timestep h r.nextTime
    rw [hs] at hstep
    exact hstep
  addRule h _ _ := h
  addFact h _ _ _ := h
  setPairing h _ := h

theorem arises_of_mem_attempts (h : r.interpretation.Arises) {t : Nat} {x : Attempt}
    (hx : x ∈ r.attempts t) : x.before.interpretation.Arises :=
  (r.keptByEffects_arises.timestepAttempts (arises_startWork h t) (fun _ _ => trivial)
    (fun _ _ => trivial) (fun _ _ _ _ => trivial) x hx).1

/-- What a reasoner has arises, while a call is under way as well. -/
theorem Has.arises {rules : Rule → Prop} {facts : Fact → Prop} (hr : r.Reachable rules facts)
    {i : Interpretation} (hi : r.Has i) : i.Arises := by
  have harises : r.interpretation.Arises := by
    refine (kept_arises rules facts).reachable (fun hnew => ?_) hr
    unfold create at hnew
    split at hnew <;> cases hnew
    exact .new _ _
  cases hi with
  | held => exact harises
  | @found call x hx =>
    obtain ⟨s, hs, hx⟩ := exists_start_of_mem_callAttempts hx
    have hstart : s.interpretation.Arises :=
      (kept_arises (fun _ => True) fun _ => True).callStarts harises call.brings_any hs
    exact arises_of_mem_attempts hstart hx

end Reasoner

end AnnotatedLogic
