import AnnotatedLogic.Proofs.Bounds
import AnnotatedLogic.Proofs.Degree.Order
import AnnotatedLogic.Proofs.Plan
/-!
# When the loop stops

The convergence criterion looks at the progress of an iteration and says whether the loop goes on. It
has no other influence: under every criterion the loop goes along the same sequence of iterations, and
the criteria differ in how far they follow it.

* `Progress.Coherent`: where no atom has changed, no bound has moved. Every iteration makes such
  progress (`pass_coherent`).
* `Convergence.Laxer`: one criterion holds wherever another one does. On coherent progress every usable
  criterion is laxer than `perfect`, and larger thresholds are laxer than smaller ones.
* `passesUntil`: the iterations up to the first whose progress passes a test.
* `Precedes`: what a laxer criterion means for the loop.
* `convergence_only_stops`: all of it, for a loop from any state.
-/

namespace AnnotatedLogic

/-! ## Criteria -/

/-- Where no atom has changed, no bound has moved. -/
def Progress.Coherent (p : Progress) : Prop := p.changedAtoms = 0 → p.movement = 0

/-- Where the criterion `d` holds of coherent progress, `c` holds as well. -/
def Convergence.Laxer (c d : Convergence) : Prop :=
  ∀ p : Progress, p.Coherent → p.converged d = true → p.converged c = true

namespace Convergence

/-- Where nothing changes, every usable criterion holds. -/
theorem laxer_perfect {c : Convergence} (hc : Config.thresholdOutsideUnit c = false) :
    c.Laxer .perfect := by
  intro p hp h
  have hnone : p.changedAtoms = 0 := eq_of_beq h
  cases c with
  | perfect => exact h
  | deltaInterpretation threshold => exact decide_eq_true (hnone ▸ Nat.zero_le threshold)
  | deltaBound threshold =>
    have hunit : Degree.inUnit threshold = true := by simpa [Config.thresholdOutsideUnit] using hc
    have hle : (0 : Degree) ≤ threshold := of_decide_eq_true (Bool.and_eq_true_iff.1 hunit).1
    have hmovement : p.movement = 0 := hp hnone
    exact decide_eq_true (hmovement ▸ hle)

theorem laxer_deltaInterpretation {m n : Nat} (h : m ≤ n) :
    (deltaInterpretation n).Laxer (deltaInterpretation m) := fun _ _ hp =>
  decide_eq_true ((of_decide_eq_true hp).trans h)

theorem laxer_deltaBound {x y : Degree} (h : x ≤ y) : (deltaBound y).Laxer (deltaBound x) := by
  intro p _ hp
  obtain ⟨hmovement, -, hx⟩ := Degree.le_iff.1 (of_decide_eq_true hp)
  obtain ⟨-, hy, hxy⟩ := Degree.le_iff.1 h
  exact decide_eq_true (Degree.le_iff.2 ⟨hmovement, hy, hx.trans hxy⟩)

/-- No atom may change under the threshold `0`, so the criterion is `perfect`. -/
theorem converged_deltaInterpretation_zero (p : Progress) :
    p.converged (.deltaInterpretation 0) = p.converged .perfect := by
  unfold Progress.converged
  rw [Bool.eq_iff_iff, decide_eq_true_iff, beq_iff_eq, Nat.le_zero]

end Convergence

/-! ## The progress of an iteration -/

theorem Progress.coherent_nothing : nothing.Coherent := fun _ => rfl

theorem Progress.Coherent.absorb {p : Progress} (hp : p.Coherent) {o : Outcome}
    (ho : o.changedAtoms = 0 → o.movement = 0) : (p.absorb o).Coherent := by
  intro h
  obtain ⟨hold, hnew⟩ := Nat.add_eq_zero_iff.1 h
  have hzero : Degree.larger 0 0 = 0 := by decide +kernel
  unfold Progress.absorb
  dsimp only
  rw [hp hold, ho hnew, hzero]

/-- An assertion that changes no atom moves no bound. -/
theorem Interpretation.assertOn_coherent (config : Config) (pairing : Pairing) {i : Interpretation}
    {a : Assertion} {w : World} (hi : i.world? a.component = some w)
    (h : (i.assertOn config pairing a w).outcome.changedAtoms = 0) :
    (i.assertOn config pairing a w).outcome.movement = 0 := by
  obtain ⟨v, changes, message, -, -, hcount, hmovement, -⟩ := assertOn_edits (P := fun _ => True)
    Interval.closed_true config pairing hi (fun _ _ _ => trivial) trivial
  rw [hcount] at h
  obtain rfl := List.length_eq_zero_iff.1 h
  exact hmovement

/-- An effect keeps the progress coherent. -/
theorem Work.perform_coherent (config : Config) (pairing : Pairing) {w : Work}
    (hw : w.progress.Coherent) (e : Effect) :
    (w.perform config pairing e).1.progress.Coherent := by
  obtain ⟨i, trace, progress⟩ := w
  cases e with
  | link edge =>
    cases h : i.addEdge edge <;> simpa only [perform, h] using hw
  | assert a =>
    cases hi : i.world? a.component with
    | none =>
      cases hm : a.missing with
      | ignore =>
        have hnothing : (progress.absorb .nothing).Coherent := hw.absorb fun _ => rfl
        unfold perform Interpretation.assert
        simp only [hi, hm]
        exact hnothing
      | error => simpa only [perform, Interpretation.assert, hi, hm] using hw
    | some v =>
      have habsorbed := hw.absorb (Interpretation.assertOn_coherent config pairing hi)
      cases hr : (i.assertOn config pairing a v).outcome.refusal? with
      | some conflict => simpa only [perform, Interpretation.assert, hi, hr] using hw
      | none => simpa only [perform, Interpretation.assert, hi, hr] using habsorbed

/-- An effect adds to the trace. -/
theorem Work.trace_perform (config : Config) (pairing : Pairing) (w : Work) (e : Effect) :
    w.trace.toList <+: (w.perform config pairing e).1.trace.toList := by
  rcases w.perform_cases config pairing e with
    ⟨_, _, -, -, -, htrace⟩ | ⟨a, v, -, -, -, htrace⟩ | ⟨-, htrace⟩
  · exact htrace.symm ▸ List.prefix_refl _
  · rw [htrace, Array.toList_appendList]
    exact List.prefix_append _ _
  · exact htrace.symm ▸ List.prefix_refl _

/-- The same configuration with another criterion. -/
def Config.withConvergence (config : Config) (c : Convergence) : Config :=
  { config with convergence := c }

namespace Reasoner

/-- The same reasoner with another criterion. -/
def withConvergence (r : Reasoner) (c : Convergence) : Reasoner :=
  { r with config := r.config.withConvergence c }

/-- The criterion has no say in an iteration. -/
theorem iterate_withConvergence (r : Reasoner) (c : Convergence) (t iteration : Nat) (w : Work) :
    (r.withConvergence c).iterate t iteration w = r.iterate t iteration w := by
  refine r.iterate_withConfig (fun rule i => ?_) rfl t iteration w
  exact (rule.ground_eq i _).trans (rule.ground_eq i _).symm

theorem pass_withConvergence (r : Reasoner) (c : Convergence) (t iteration : Nat) (w : Work) :
    (r.withConvergence c).pass t iteration w = r.pass t iteration w := by
  unfold pass
  rw [iterate_withConvergence]

/-- What every effect keeps, an iteration keeps. -/
theorem iterate_of_perform {r : Reasoner} {P : Work → Prop}
    (h : ∀ w e, P w → P (w.perform r.config r.pairing e).1) {w : Work} (hw : P w)
    (t iteration : Nat) : P (r.iterate t iteration w).1 :=
  foldUntil_invariant (P := P) (fun _ _ hw => foldUntil_invariant (P := P) h hw _) hw _

/-- The progress of an iteration is coherent. -/
theorem pass_coherent (r : Reasoner) (t iteration : Nat) (w : Work) :
    (r.pass t iteration w).after.progress.Coherent :=
  iterate_of_perform (P := fun w => w.progress.Coherent)
    (fun _ e hw => Work.perform_coherent r.config r.pairing hw e) Progress.coherent_nothing t iteration

/-- An iteration adds to the trace. -/
theorem trace_pass (r : Reasoner) (t iteration : Nat) (w : Work) :
    w.trace.toList <+: (r.pass t iteration w).after.trace.toList :=
  iterate_of_perform (P := fun v => w.trace.toList <+: v.trace.toList)
    (fun v e hv => hv.trans (v.trace_perform r.config r.pairing e))
    (w := { w with progress := .nothing }) (List.prefix_refl _) t iteration

/-! ## Iterations up to a test -/

/-- The iterations of a loop that ends with the first whose progress passes a test, with the first that
is stopped, or when `more` have followed the first. -/
def passesUntil (r : Reasoner) (done : Progress → Bool) (t : Nat) :
    (more iteration : Nat) → Work → List Pass
  | 0, iteration, w => [r.pass t iteration w]
  | more + 1, iteration, w =>
    r.pass t iteration w ::
      if (r.pass t iteration w).halt.isNone && !done (r.pass t iteration w).after.progress then
        r.passesUntil done t more (iteration + 1) (r.pass t iteration w).after
      else []

/-- The iterations of a loop that no criterion ends. -/
def endlessPasses (r : Reasoner) : (t more iteration : Nat) → Work → List Pass :=
  r.passesUntil fun _ => false

/-- The loop tests the progress by its criterion. -/
theorem passes_eq (r : Reasoner) (t more iteration : Nat) (w : Work) :
    r.passes t more iteration w
      = r.passesUntil (·.converged r.config.convergence) t more iteration w := by
  induction more generalizing iteration w with
  | zero => rfl
  | succ more ih =>
    rw [passes, passesUntil, ← ih]
    unfold goesOn
    split <;> rfl

theorem passesUntil_withConvergence (r : Reasoner) (c : Convergence) (done : Progress → Bool)
    (t more iteration : Nat) (w : Work) :
    (r.withConvergence c).passesUntil done t more iteration w
      = r.passesUntil done t more iteration w := by
  induction more generalizing iteration w with
  | zero => rw [passesUntil, passesUntil, pass_withConvergence]
  | succ more ih => rw [passesUntil, passesUntil, pass_withConvergence, ih]

/-- The iterations under a criterion, as iterations of the reasoner itself. -/
theorem passes_withConvergence (r : Reasoner) (c : Convergence) (t more iteration : Nat) (w : Work) :
    (r.withConvergence c).passes t more iteration w
      = r.passesUntil (·.converged c) t more iteration w := by
  rw [passes_eq]
  exact r.passesUntil_withConvergence c (·.converged c) t more iteration w

/-- A test that is passed whenever another one is leaves a beginning of the other one's iterations. -/
theorem passesUntil_prefix {r : Reasoner} {done late : Progress → Bool}
    (h : ∀ p : Progress, p.Coherent → late p = true → done p = true) (t more iteration : Nat)
    (w : Work) :
    r.passesUntil done t more iteration w <+: r.passesUntil late t more iteration w := by
  induction more generalizing iteration w with
  | zero => exact List.prefix_refl _
  | succ more ih =>
    have hdone := h _ (r.pass_coherent t iteration w)
    rw [passesUntil, passesUntil, List.prefix_cons_inj]
    split
    · next hgoes =>
      obtain ⟨hnone, hnot⟩ := Bool.and_eq_true_iff.1 hgoes
      rw [Bool.not_eq_true'] at hnot
      have hlate : late (r.pass t iteration w).after.progress = false :=
        Bool.eq_false_iff.2 fun hl => Bool.eq_false_iff.1 hnot (hdone hl)
      rw [if_pos (by rw [hnone, hlate]; rfl)]
      exact ih (iteration + 1) _
    · exact List.nil_prefix

/-- Tests that agree on the progress of these iterations leave the same iterations. -/
theorem passesUntil_congr {r : Reasoner} {done other : Progress → Bool} {t more iteration : Nat}
    {w : Work} (h : ∀ p ∈ r.passesUntil done t more iteration w, p.halt = none →
      done p.after.progress = other p.after.progress) :
    r.passesUntil done t more iteration w = r.passesUntil other t more iteration w := by
  induction more generalizing iteration w with
  | zero => rfl
  | succ more ih =>
    rw [passesUntil] at h ⊢
    rw [passesUntil]
    cases hhalt : (r.pass t iteration w).halt with
    | some halt => rfl
    | none =>
      rw [← h _ (List.mem_cons_self ..) hhalt]
      split
      · next hgoes =>
        rw [if_pos (by rw [hhalt]; exact hgoes)] at h
        rw [ih fun p hp => h p (List.mem_cons_of_mem _ hp)]
      · rfl

/-- Under a criterion that judges the progress of its iterations alike, a timestep has the same ones. -/
theorem timestepPasses_withConvergence {r : Reasoner} {c : Convergence} {t : Nat}
    (h : ∀ p ∈ r.timestepPasses t, p.halt = none →
      p.after.progress.converged r.config.convergence = p.after.progress.converged c) :
    (r.withConvergence c).timestepPasses t = r.timestepPasses t := by
  rw [timestepPasses_eq] at h ⊢
  rw [show (r.withConvergence c).loopStart? t = r.loopStart? t from rfl, timestepPasses_eq]
  cases hv : r.loopStart? t with
  | none => rfl
  | some v =>
    simp only [hv, passes_eq] at h
    show (r.withConvergence c).passes t (r.config.maxIterations - 1) 1 v
      = r.passes t (r.config.maxIterations - 1) 1 v
    rw [passes_withConvergence, passes_eq]
    refine (passesUntil_congr fun p hp => ?_).symm
    exact h p hp

theorem trace_of_mem_passesUntil {r : Reasoner} {done : Progress → Bool} {t more iteration : Nat}
    {w : Work} {p : Pass} (hp : p ∈ r.passesUntil done t more iteration w) :
    w.trace.toList <+: p.after.trace.toList := by
  induction more generalizing iteration w with
  | zero =>
    rw [List.mem_singleton.1 hp]
    exact r.trace_pass t iteration w
  | succ more ih =>
    rw [passesUntil] at hp
    rcases List.mem_cons.1 hp with rfl | hp
    · exact r.trace_pass t iteration w
    · split at hp
      · exact (r.trace_pass t iteration w).trans (ih hp)
      · cases hp

/-- The trace grows from iteration to iteration. -/
theorem pairwise_trace (r : Reasoner) (done : Progress → Bool) (t more iteration : Nat) (w : Work) :
    (r.passesUntil done t more iteration w).Pairwise fun p q =>
      p.after.trace.toList <+: q.after.trace.toList := by
  induction more generalizing iteration w with
  | zero => exact List.pairwise_singleton _ _
  | succ more ih =>
    rw [passesUntil]
    split
    · exact List.pairwise_cons.2 ⟨fun q hq => trace_of_mem_passesUntil hq, ih (iteration + 1) _⟩
    · exact List.pairwise_singleton _ _

/-! ## Loops under two criteria -/

/-- The loop of `r` goes through a beginning of the iterations of the one of `s`, and leaves a beginning
of its trace. -/
structure Precedes (r s : Reasoner) (t more iteration : Nat) (w : Work) : Prop where
  passes : r.passes t more iteration w <+: s.passes t more iteration w
  trace : (r.fixpoint t more iteration w).1.trace.toList
    <+: (s.fixpoint t more iteration w).1.trace.toList

/-- A laxer criterion stops the loop no later. -/
theorem precedes_of_laxer (r : Reasoner) {c d : Convergence} (h : c.Laxer d) (t more iteration : Nat)
    (w : Work) : Precedes (r.withConvergence c) (r.withConvergence d) t more iteration w := by
  have hbegins : (r.withConvergence c).passes t more iteration w
      <+: (r.withConvergence d).passes t more iteration w := by
    rw [passes_withConvergence, passes_withConvergence]
    exact passesUntil_prefix h t more iteration w
  refine ⟨hbegins, ?_⟩
  obtain ⟨last, hlast, -, htrace, -⟩ := (r.withConvergence c).fixpoint_last t more iteration w
  obtain ⟨final, hfinal, -, hftrace, -⟩ := (r.withConvergence d).fixpoint_last t more iteration w
  rw [htrace, hftrace]
  -- What comes after the last iteration under `c` has a longer trace.
  obtain ⟨rest, hrest⟩ := hbegins
  have hgrows := r.pairwise_trace (·.converged d) t more iteration w
  rw [← passes_withConvergence, ← hrest] at hgrows
  rw [← hrest] at hfinal
  cases hr : rest.getLast? with
  | none =>
    rw [List.getLast?_append, hr, Option.none_or, hlast] at hfinal
    cases hfinal
    exact List.prefix_refl _
  | some x =>
    rw [List.getLast?_append, hr, Option.some_or] at hfinal
    cases hfinal
    exact (List.pairwise_append.1 hgrows).2.2 last (List.mem_of_getLast? hlast) final
      (List.mem_of_getLast? hr)

/-- From any state, and whatever the rules are, the loop goes through the same iterations under every
criterion and stops somewhere on the way, with the state and the reason to halt that the last of them leads
to: under a usable criterion no later than under `perfect`, under a larger threshold no later than under a
smaller one, and where no atom may change exactly where `perfect` stops. -/
theorem convergence_only_stops (r : Reasoner) (t more iteration : Nat) (w : Work) :
    (∀ c, (r.withConvergence c).endlessPasses t more iteration w = r.endlessPasses t more iteration w ∧
      (r.withConvergence c).passes t more iteration w <+: r.endlessPasses t more iteration w ∧
      (∀ p ∈ (r.withConvergence c).passes t more iteration w,
        r.iterate t p.iteration p.before = (p.after, p.halt)) ∧
      ∃ last, ((r.withConvergence c).passes t more iteration w).getLast? = some last ∧
        ((r.withConvergence c).fixpoint t more iteration w).1.interpretation
          = last.after.interpretation ∧
        ((r.withConvergence c).fixpoint t more iteration w).1.trace = last.after.trace ∧
        ((r.withConvergence c).fixpoint t more iteration w).2 = last.halt) ∧
    (∀ c, Config.thresholdOutsideUnit c = false →
      Precedes (r.withConvergence c) (r.withConvergence .perfect) t more iteration w) ∧
    (∀ m n, m ≤ n →
      Precedes (r.withConvergence (.deltaInterpretation n)) (r.withConvergence (.deltaInterpretation m))
        t more iteration w) ∧
    (∀ x y, x ≤ y →
      Precedes (r.withConvergence (.deltaBound y)) (r.withConvergence (.deltaBound x))
        t more iteration w) ∧
    (r.withConvergence (.deltaInterpretation 0)).passes t more iteration w
      = (r.withConvergence .perfect).passes t more iteration w ∧
    (r.withConvergence (.deltaInterpretation 0)).fixpoint t more iteration w
      = (r.withConvergence .perfect).fixpoint t more iteration w := by
  have hpasses (c : Convergence) := r.passes_withConvergence c t more iteration w
  have hzero : (fun p => Progress.converged p (.deltaInterpretation 0))
      = (fun p => Progress.converged p .perfect) :=
    funext Convergence.converged_deltaInterpretation_zero
  refine ⟨fun c => ⟨r.passesUntil_withConvergence c _ t more iteration w, ?_, fun p hp => ?_,
      (r.withConvergence c).fixpoint_last t more iteration w⟩,
    fun c hc => r.precedes_of_laxer (Convergence.laxer_perfect hc) t more iteration w,
    fun m n h => r.precedes_of_laxer (Convergence.laxer_deltaInterpretation h) t more iteration w,
    fun x y h => r.precedes_of_laxer (Convergence.laxer_deltaBound h) t more iteration w, ?_, ?_⟩
  · rw [hpasses]
    exact passesUntil_prefix (fun _ _ h => by cases h) t more iteration w
  · rw [← r.iterate_withConvergence c]
    exact (iterate_of_mem_passes hp).2
  · rw [hpasses, hpasses, hzero]
  · exact fixpoint_congr
      (fun iteration w => by rw [iterate_withConvergence, iterate_withConvergence])
      Convergence.converged_deltaInterpretation_zero more iteration w

/-- A node learns `p`, from that `q` and from that `s`, one after the other. Under `perfect` the loop of a
first timestep goes through three iterations. Where one atom may change it stops after the first, and so
it does where a bound may move by `1`; where none may move it goes on as far as under `perfect`. -/
theorem convergence_only_stops_chain :
    let first : Rule :=
      { Rule.simple .node "first" ⟨"q"⟩ with delay := 0, criteria := [(⟨"p"⟩, .certain)] }
    let second : Rule :=
      { Rule.simple .node "second" ⟨"s"⟩ with delay := 0, criteria := [(⟨"q"⟩, .certain)] }
    let fact : Fact := ⟨"f", .node ⟨"a"⟩, ⟨"p"⟩, .certain, 0, 0, false, false⟩
    ∃ new, create (Graph.empty.addNode ⟨"a"⟩) {} .standard = .ok new ∧
      let r := (new.calls [.addRule first, .addRule second, .addFact fact]).1
      let w := ((r.startWork 0).performAll r.config r.pairing (r.factEffects 0)).1
      let passes (c : Convergence) := (r.withConvergence c).passes 0 9 1 w
      (passes .perfect).length = 3 ∧ (passes (.deltaBound 0)).length = 3 ∧
        (passes (.deltaInterpretation 1)).length = 1 ∧ (passes (.deltaBound 1)).length = 1 ∧
        passes (.deltaInterpretation 0) = passes .perfect ∧
        passes (.deltaBound 0) <+: passes .perfect ∧
        passes (.deltaInterpretation 1) <+: passes (.deltaInterpretation 0) ∧
        passes (.deltaBound 1) <+: passes (.deltaBound 0) := by
  intro first second fact
  refine ⟨_, rfl, ?_⟩
  intro r w passes
  obtain ⟨-, husable, hatoms, hbounds, hzero, -⟩ := r.convergence_only_stops 0 9 1 w
  exact ⟨by decide +kernel, by decide +kernel, by decide +kernel, by decide +kernel, hzero,
    (husable (.deltaBound 0) (by decide +kernel)).passes, (hatoms 0 1 (by decide)).passes,
    (hbounds 0 1 (by decide +kernel)).passes⟩

end Reasoner

end AnnotatedLogic
