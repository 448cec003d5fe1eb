import AnnotatedLogic.Proofs.Until
import AnnotatedLogic.Reasoner.Run
/-!
# Passes of the loop

The loop of a timestep adds up progress as it goes; what it goes through is a list of passes, one
for each iteration.

* `fixpoint_zero`, `fixpoint_succ`: the loop ends with a pass or goes on from where that got to.
* `fixpoint_congr`: the loop reads a reasoner only through its iterations and its criterion.
* `passes`: the iterations of the loop with the states before and after them.
* `iterate_of_mem_passes`, `fixpoint_last`: each pass is an iteration, and the loop ends where its
  last pass ends.
* `passes_end`: it goes on after every other pass, and ends with the first after which it need not.
-/

namespace AnnotatedLogic

/-- One iteration of the loop. -/
structure Pass where
  iteration : Nat
  /-- The state that the iteration started with, which has made no progress yet. -/
  before : Work
  after : Work
  halt : Option Halt

/-- The state after a pass, with the progress of all passes so far. -/
def Pass.total (p : Pass) (w : Work) : Work :=
  { p.after with progress := w.progress.merge p.after.progress }

namespace Reasoner

/-- One iteration from a state, whatever progress led to it. -/
def pass (r : Reasoner) (t iteration : Nat) (w : Work) : Pass :=
  ⟨iteration, { w with progress := .nothing },
    (r.iterate t iteration { w with progress := .nothing }).1,
    (r.iterate t iteration { w with progress := .nothing }).2⟩

/-- Whether the loop has to look further after a pass. -/
def goesOn (r : Reasoner) (p : Pass) : Bool :=
  p.halt.isNone && !p.after.progress.converged r.config.convergence

/-- The loop without a further iteration. -/
theorem fixpoint_zero (r : Reasoner) (t iteration : Nat) (w : Work) :
    r.fixpoint t 0 iteration w
      = ((r.pass t iteration w).total w, (r.pass t iteration w).halt) := by
  unfold fixpoint pass Pass.total
  dsimp only
  rcases r.iterate t iteration { w with progress := .nothing } with ⟨done, _ | halt⟩
  · dsimp only
    split <;> rfl
  · rfl

/-- The loop with further iterations ends with a pass or goes on from where that got to. -/
theorem fixpoint_succ (r : Reasoner) (t more iteration : Nat) (w : Work) :
    r.fixpoint t (more + 1) iteration w =
      if r.goesOn (r.pass t iteration w) then
        r.fixpoint t more (iteration + 1) ((r.pass t iteration w).total w)
      else ((r.pass t iteration w).total w, (r.pass t iteration w).halt) := by
  rw [fixpoint]
  unfold goesOn pass Pass.total
  rcases r.iterate t iteration { w with progress := .nothing } with ⟨done, _ | halt⟩
  · cases hc : done.progress.converged r.config.convergence <;> simp only [hc] <;> rfl
  · rfl

/-- The loop reads a reasoner only through its iterations and its criterion. -/
theorem fixpoint_congr {r s : Reasoner} {t : Nat}
    (hi : ∀ iteration w, r.iterate t iteration w = s.iterate t iteration w)
    (hc : ∀ p : Progress, p.converged r.config.convergence = p.converged s.config.convergence)
    (more iteration : Nat) (w : Work) :
    r.fixpoint t more iteration w = s.fixpoint t more iteration w := by
  have hpass (iteration : Nat) (w : Work) : r.pass t iteration w = s.pass t iteration w := by
    unfold pass
    rw [hi]
  have hgoes (p : Pass) : r.goesOn p = s.goesOn p := by
    unfold goesOn
    rw [hc]
  induction more generalizing iteration w with
  | zero => rw [fixpoint_zero, fixpoint_zero, hpass]
  | succ more ih => rw [fixpoint_succ, fixpoint_succ, hpass, hgoes, ih]

/-- The passes of the loop. -/
def passes (r : Reasoner) (t : Nat) : (more iteration : Nat) → Work → List Pass
  | 0, iteration, w => [r.pass t iteration w]
  | more + 1, iteration, w =>
    if r.goesOn (r.pass t iteration w) then
      r.pass t iteration w :: r.passes t more (iteration + 1) (r.pass t iteration w).after
    else [r.pass t iteration w]

/-- Progress made before has no influence on the passes. -/
theorem passes_total (r : Reasoner) (t more iteration : Nat) (p : Pass) (w : Work) :
    r.passes t more iteration (p.total w) = r.passes t more iteration p.after := by
  cases more <;> rfl

/-- Every pass is one iteration. -/
theorem iterate_of_mem_passes {r : Reasoner} {t more iteration : Nat} {w : Work} {p : Pass}
    (h : p ∈ r.passes t more iteration w) :
    p.before.progress = .nothing ∧ r.iterate t p.iteration p.before = (p.after, p.halt) := by
  induction more generalizing iteration w with
  | zero =>
    rw [List.mem_singleton.1 h]
    exact ⟨rfl, rfl⟩
  | succ more ih =>
    rw [passes] at h
    split at h
    · rcases List.mem_cons.1 h with rfl | h
      · exact ⟨rfl, rfl⟩
      · exact ih h
    · rw [List.mem_singleton.1 h]
      exact ⟨rfl, rfl⟩

/-- The loop goes on after all passes but the last. After that one it need not, or it must not. -/
theorem passes_end (r : Reasoner) (t more iteration : Nat) (w : Work) :
    ∃ earlier last, r.passes t more iteration w = earlier ++ [last] ∧
      (∀ p ∈ earlier, r.goesOn p = true) ∧ (r.goesOn last = false ∨ earlier.length = more) := by
  induction more generalizing iteration w with
  | zero => exact ⟨[], r.pass t iteration w, rfl, by simp, .inr rfl⟩
  | succ more ih =>
    rw [passes]
    split
    · next hgoes =>
      obtain ⟨earlier, last, heq, hearlier, hlast⟩ := ih (iteration + 1) (r.pass t iteration w).after
      exact ⟨r.pass t iteration w :: earlier, last, by rw [heq]; rfl,
        List.forall_mem_cons.2 ⟨hgoes, hearlier⟩, hlast.imp_right (congrArg (· + 1))⟩
    · next hgoes => exact ⟨[], r.pass t iteration w, rfl, by simp, .inl (Bool.eq_false_iff.2 hgoes)⟩

/-- The loop ends where its last pass ends. -/
theorem fixpoint_last (r : Reasoner) (t more iteration : Nat) (w : Work) :
    ∃ last, (r.passes t more iteration w).getLast? = some last ∧
      (r.fixpoint t more iteration w).1.interpretation = last.after.interpretation ∧
      (r.fixpoint t more iteration w).1.trace = last.after.trace ∧
      (r.fixpoint t more iteration w).2 = last.halt := by
  induction more generalizing iteration w with
  | zero =>
    rw [fixpoint_zero]
    exact ⟨r.pass t iteration w, rfl, rfl, rfl, rfl⟩
  | succ more ih =>
    rw [fixpoint_succ, passes]
    split
    · obtain ⟨last, hlast, hrest⟩ := ih (iteration + 1) ((r.pass t iteration w).total w)
      rw [passes_total] at hlast
      refine ⟨last, ?_, hrest⟩
      rw [List.getLast?_cons, hlast]
      rfl
    · exact ⟨r.pass t iteration w, rfl, rfl, rfl, rfl⟩

end Reasoner

end AnnotatedLogic
