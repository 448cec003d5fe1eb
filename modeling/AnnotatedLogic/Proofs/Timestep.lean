import AnnotatedLogic.Proofs.Passes
/-!
# What a timestep can do

A timestep is a sequence of effects with a loop in it. What later proofs need of it is said here
once, so that none of them has to take a timestep apart again.

* `Passage`: the four ways in which a timestep ends, with the state at each stage on the way.
  `timestep_passage` says that every timestep ends in one of them.
* `Performs`: the effects that a timestep may carry out, with the iteration that does it.
* `timestep_invariant`: what each of these effects keeps, the timestep keeps, whether it is
  completed or not.
-/

namespace AnnotatedLogic

namespace Reasoner

/-- The effects of the facts of a timestep. -/
def factEffects (r : Reasoner) (t : Nat) : List Effect :=
  (r.activeFacts t).map (Fact.effect r.config t)

/-- The firings that are due at a timestep are spent. -/
def spend (r : Reasoner) (t : Nat) : Reasoner :=
  { r with pending := r.pending.filter (·.due != t) }

theorem fixpoint_spend (r : Reasoner) (t u more iteration : Nat) (w : Work) :
    (r.spend u).fixpoint t more iteration w = r.fixpoint t more iteration w :=
  @fixpoint_congr (r.spend u) r t (fun _ _ => rfl) (fun _ => rfl) more iteration w

/-! ## How a timestep ends -/

/-- A timestep ends at a fact, at a firing that is due or within the loop, or it is completed. -/
inductive Passage (r : Reasoner) (t : Nat) : Reasoner × Except Halt Progress → Prop where
  | facts {w : Work} {halt : Halt}
      (hfacts : (r.startWork t).performAll r.config r.pairing (r.factEffects t) = (w, some halt)) :
      Passage r t (r.withWork w, .error halt)
  | due {u w : Work} {halt : Halt}
      (hfacts : (r.startWork t).performAll r.config r.pairing (r.factEffects t) = (u, none))
      (hdue : u.performAll r.config r.pairing (r.dueEffects t) = (w, some halt)) :
      Passage r t ((r.spend t).withWork w, .error halt)
  | loop {u v w : Work} {halt : Halt}
      (hfacts : (r.startWork t).performAll r.config r.pairing (r.factEffects t) = (u, none))
      (hdue : u.performAll r.config r.pairing (r.dueEffects t) = (v, none))
      (hloop : r.fixpoint t (r.config.maxIterations - 1) 1 v = (w, some halt)) :
      Passage r t ((r.spend t).withWork w, .error halt)
  | completed {u v w : Work}
      (hfacts : (r.startWork t).performAll r.config r.pairing (r.factEffects t) = (u, none))
      (hdue : u.performAll r.config r.pairing (r.dueEffects t) = (v, none))
      (hloop : r.fixpoint t (r.config.maxIterations - 1) 1 v = (w, none)) :
      Passage r t
        ({ (r.spend t).withWork w with
            pending := (r.spend t).pending ++ r.delayedFirings t w.interpretation },
          .ok w.progress)

/-- Every timestep ends in one of the four ways. -/
theorem timestep_passage (r : Reasoner) (t : Nat) : r.Passage t (r.timestep t) := by
  have hspend (w : Work) :
      fixpoint { r with pending := r.pending.filter (·.due != t) } t (r.config.maxIterations - 1) 1 w
        = r.fixpoint t (r.config.maxIterations - 1) 1 w := r.fixpoint_spend t t _ 1 w
  unfold timestep
  dsimp only
  split
  · next w halt hfacts => exact .facts hfacts
  · next u hfacts =>
    split
    · next w halt hdue => exact .due hfacts hdue
    · next v hdue =>
      rw [hspend]
      split
      · next w halt hloop => exact .loop hfacts hdue hloop
      · next w hloop => exact .completed hfacts hdue hloop

/-- The stages on the way determine how the timestep ends. -/
theorem Passage.eq {r : Reasoner} {t : Nat} {result : Reasoner × Except Halt Progress}
    (h : r.Passage t result) : r.timestep t = result := by
  have hspend (w : Work) :
      fixpoint { r with pending := r.pending.filter (·.due != t) } t (r.config.maxIterations - 1) 1 w
        = r.fixpoint t (r.config.maxIterations - 1) 1 w := r.fixpoint_spend t t _ 1 w
  unfold timestep
  cases h with
  | facts hfacts =>
    unfold factEffects at hfacts
    simp only [hfacts]
  | due hfacts hdue =>
    unfold factEffects at hfacts
    simp only [hfacts, hdue]
    rfl
  | loop hfacts hdue hloop =>
    unfold factEffects at hfacts
    simp only [hfacts, hdue, hspend, hloop]
    rfl
  | completed hfacts hdue hloop =>
    unfold factEffects at hfacts
    simp only [hfacts, hdue, hspend, hloop]
    rfl

/-- A timestep changes the interpretation, the trace and the firings to come, and nothing else. -/
theorem timestep_frame (r : Reasoner) (t : Nat) :
    (r.timestep t).1 =
      { r with
        interpretation := (r.timestep t).1.interpretation
        trace := (r.timestep t).1.trace
        pending := (r.timestep t).1.pending } := by
  have hpassage := r.timestep_passage t
  generalize r.timestep t = result at hpassage
  cases hpassage <;> rfl

@[simp] theorem timestep_config (r : Reasoner) (t : Nat) : (r.timestep t).1.config = r.config := by
  rw [timestep_frame]

@[simp] theorem timestep_nextTime (r : Reasoner) (t : Nat) :
    (r.timestep t).1.nextTime = r.nextTime := by
  rw [timestep_frame]

/-- The passes of a timestep. There are none if it stops before its loop. -/
def timestepPasses (r : Reasoner) (t : Nat) : List Pass :=
  match (r.startWork t).performAll r.config r.pairing (r.factEffects t) with
  | (_, some _) => []
  | (u, none) =>
    match u.performAll r.config r.pairing (r.dueEffects t) with
    | (_, some _) => []
    | (v, none) => r.passes t (r.config.maxIterations - 1) 1 v

/-- The state in which a timestep starts its loop, if it gets that far. -/
def loopStart? (r : Reasoner) (t : Nat) : Option Work :=
  match (r.startWork t).performAll r.config r.pairing (r.factEffects t) with
  | (_, some _) => none
  | (u, none) =>
    match u.performAll r.config r.pairing (r.dueEffects t) with
    | (_, some _) => none
    | (v, none) => some v

theorem timestepPasses_eq (r : Reasoner) (t : Nat) :
    r.timestepPasses t = match r.loopStart? t with
      | none => []
      | some v => r.passes t (r.config.maxIterations - 1) 1 v := by
  unfold timestepPasses loopStart?
  rcases (r.startWork t).performAll r.config r.pairing (r.factEffects t) with ⟨u, _ | halt⟩
  · dsimp only
    rcases u.performAll r.config r.pairing (r.dueEffects t) with ⟨v, _ | halt⟩ <;> rfl
  · rfl

/-- The passes of a timestep are those of its loop. -/
theorem exists_loopStart {r : Reasoner} {t : Nat} (h : r.timestepPasses t ≠ []) :
    ∃ v, r.loopStart? t = some v ∧
      r.timestepPasses t = r.passes t (r.config.maxIterations - 1) 1 v := by
  rw [timestepPasses_eq] at h ⊢
  cases hv : r.loopStart? t with
  | none => exact absurd (by rw [hv]) h
  | some v => exact ⟨v, rfl, rfl⟩

/-- Every pass of a timestep is one iteration. -/
theorem iterate_of_mem_timestepPasses {r : Reasoner} {t : Nat} {p : Pass}
    (h : p ∈ r.timestepPasses t) :
    p.before.progress = .nothing ∧ r.iterate t p.iteration p.before = (p.after, p.halt) := by
  obtain ⟨v, -, hpasses⟩ := exists_loopStart (List.ne_nil_of_mem h)
  exact iterate_of_mem_passes (hpasses ▸ h)

/-- A timestep goes on after all passes but the last. After that one it need not, or it must not. -/
theorem timestepPasses_end {r : Reasoner} {t : Nat} {earlier : List Pass} {last : Pass}
    (h : r.timestepPasses t = earlier ++ [last]) :
    (∀ p ∈ earlier, r.goesOn p = true) ∧
      (r.goesOn last = false ∨ earlier.length = r.config.maxIterations - 1) := by
  obtain ⟨v, -, hpasses⟩ := exists_loopStart (r := r) (t := t) (by simp [h])
  obtain ⟨passes, final, heq, hends⟩ := r.passes_end t (r.config.maxIterations - 1) 1 v
  obtain ⟨rfl, hfinal⟩ := List.append_inj' ((hpasses.trans heq).symm.trans h) rfl
  rwa [← List.singleton_inj.1 hfinal]

/-- A timestep that is completed ends where its last pass ends. -/
theorem timestep_last {r s : Reasoner} {t : Nat} {progress : Progress}
    (h : r.timestep t = (s, .ok progress)) :
    ∃ last, (r.timestepPasses t).getLast? = some last ∧ last.halt = none ∧
      s.interpretation = last.after.interpretation ∧ s.trace = last.after.trace := by
  have hpassage := r.timestep_passage t
  rw [h] at hpassage
  cases hpassage with
  | @completed u v w hfacts hdue hloop =>
    obtain ⟨last, hlast, hi, htrace, hhalt⟩ :=
      r.fixpoint_last t (r.config.maxIterations - 1) 1 v
    rw [hloop] at hi htrace hhalt
    refine ⟨last, ?_, hhalt.symm, hi, htrace⟩
    unfold timestepPasses
    rw [hfacts]
    dsimp only
    rw [hdue]
    exact hlast

/-! ## The effects of a timestep -/

/-- The effects that a timestep may carry out, with the iteration that carries them out. -/
inductive Performs (r : Reasoner) (t : Nat) : Nat → Effect → Prop where
  | fact {f : Fact} (hf : f ∈ r.facts) : Performs r t 0 (f.effect r.config t)
  | due {f : Firing} {e : Effect} (hf : f ∈ r.pending) (he : e ∈ f.rule.effects t 0 f.grounding) :
      Performs r t 0 e
  | rule {rule : Rule} {i : Interpretation} {g : Grounding} {iteration : Nat} {e : Effect}
      (hr : rule ∈ r.rules) (hg : g ∈ rule.ground i r.config)
      (he : e ∈ rule.effects t iteration g) : Performs r t iteration e

theorem performs_of_mem_factEffects {r : Reasoner} {t : Nat} {e : Effect}
    (h : e ∈ r.factEffects t) : r.Performs t 0 e := by
  obtain ⟨f, hf, rfl⟩ := List.mem_map.1 h
  have hmem := (List.mem_filter.1 hf).1
  rw [List.mem_append, List.mem_filter, List.mem_filter] at hmem
  rcases hmem with ⟨hf, -⟩ | ⟨hf, -⟩ <;> exact .fact hf

theorem performs_of_mem_dueEffects {r : Reasoner} {t : Nat} {e : Effect}
    (h : e ∈ r.dueEffects t) : r.Performs t 0 e := by
  obtain ⟨f, hf, he⟩ := List.mem_flatMap.1 h
  exact .due (List.mem_filter.1 hf).1 he

/-- What a stage asks for, it asks for because of a rule that it has grounded. -/
theorem exists_rule_of_mem_stage {r : Reasoner} {t iteration : Nat} {stage : Stage}
    (h : stage ∈ r.stages t iteration) {i : Interpretation} {e : Effect} (he : e ∈ stage i) :
    ∃ rule ∈ r.rules, ∃ g ∈ rule.ground i r.config, e ∈ rule.effects t iteration g := by
  unfold stages at h
  rw [List.mem_append, List.mem_map, List.mem_singleton] at h
  rcases h with ⟨rule, hr, rfl⟩ | rfl
  · exact ⟨rule, (List.mem_filter.1 hr).1, List.mem_flatMap.1 he⟩
  · obtain ⟨rule, hr, he⟩ := List.mem_flatMap.1 he
    exact ⟨rule, (List.mem_filter.1 hr).1, List.mem_flatMap.1 he⟩

theorem performs_of_mem_stage {r : Reasoner} {t iteration : Nat} {stage : Stage}
    (h : stage ∈ r.stages t iteration) {i : Interpretation} {e : Effect} (he : e ∈ stage i) :
    r.Performs t iteration e := by
  obtain ⟨rule, hr, g, hg, he⟩ := exists_rule_of_mem_stage h he
  exact .rule hr hg he

/-! ## What a timestep keeps -/

section Invariant

variable {r : Reasoner} {t : Nat} {P : Nat → Interpretation → Trace → Prop}

/-- Every effect of an iteration keeps `P` of this iteration. -/
def Keeps (r : Reasoner) (t : Nat) (P : Nat → Interpretation → Trace → Prop) : Prop :=
  ∀ {iteration e}, r.Performs t iteration e → ∀ w : Work,
    P iteration w.interpretation w.trace →
      P iteration (w.perform r.config r.pairing e).1.interpretation
        (w.perform r.config r.pairing e).1.trace

theorem performAll_invariant (hstep : r.Keeps t P) {iteration : Nat} {effects : List Effect}
    (he : ∀ e ∈ effects, r.Performs t iteration e) {w : Work}
    (hw : P iteration w.interpretation w.trace) :
    P iteration (w.performAll r.config r.pairing effects).1.interpretation
      (w.performAll r.config r.pairing effects).1.trace :=
  foldUntil_invariant_mem (P := fun w => P iteration w.interpretation w.trace)
    (fun e hmem w => hstep (he e hmem) w) hw

theorem iterate_invariant (hstep : r.Keeps t P) {iteration : Nat} {w : Work}
    (hw : P iteration w.interpretation w.trace) :
    P iteration (r.iterate t iteration w).1.interpretation (r.iterate t iteration w).1.trace :=
  foldUntil_invariant_mem (P := fun w => P iteration w.interpretation w.trace)
    (fun _ hstage w hw => performAll_invariant hstep (w := w)
      (fun _ he => performs_of_mem_stage hstage he) hw) hw

theorem fixpoint_invariant (hstep : r.Keeps t P)
    (hnext : ∀ {iteration i trace}, P iteration i trace → P (iteration + 1) i trace)
    (more : Nat) {iteration : Nat} {w : Work} (hw : P iteration w.interpretation w.trace) :
    ∃ last, P last (r.fixpoint t more iteration w).1.interpretation
      (r.fixpoint t more iteration w).1.trace := by
  induction more generalizing iteration w with
  | zero =>
    rw [fixpoint_zero]
    exact ⟨iteration, iterate_invariant hstep (w := { w with progress := .nothing }) hw⟩
  | succ more ih =>
    have hi := iterate_invariant hstep (w := { w with progress := .nothing }) hw
    rw [fixpoint_succ]
    split
    · exact ih (w := (r.pass t iteration w).total w) (hnext hi)
    · exact ⟨iteration, hi⟩

/-- What every effect keeps and the next iteration takes over, the timestep keeps. -/
theorem timestep_invariant (hstep : r.Keeps t P)
    (hnext : ∀ {iteration i trace}, P iteration i trace → P (iteration + 1) i trace)
    (hstart : P 0 (r.startWork t).interpretation (r.startWork t).trace) :
    ∃ last, P last (r.timestep t).1.interpretation (r.timestep t).1.trace := by
  have hafterFacts := performAll_invariant hstep (fun _ => performs_of_mem_factEffects) hstart
  have hafterDue {u : Work} (hu : P 0 u.interpretation u.trace) :=
    performAll_invariant hstep (fun _ => performs_of_mem_dueEffects (r := r) (t := t)) hu
  have hpassage := r.timestep_passage t
  generalize r.timestep t = result at hpassage
  cases hpassage with
  | facts hfacts =>
    rw [hfacts] at hafterFacts
    exact ⟨0, hafterFacts⟩
  | due hfacts hdue =>
    rw [hfacts] at hafterFacts
    have hw := hafterDue hafterFacts
    rw [hdue] at hw
    exact ⟨0, hw⟩
  | loop hfacts hdue hloop | completed hfacts hdue hloop =>
    rw [hfacts] at hafterFacts
    have hv := hafterDue hafterFacts
    rw [hdue] at hv
    have hw := fixpoint_invariant hstep hnext (r.config.maxIterations - 1) (hnext hv)
    rw [Nat.zero_add, hloop] at hw
    exact hw

end Invariant

end Reasoner

end AnnotatedLogic
