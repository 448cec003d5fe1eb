import AnnotatedLogic.Proofs.Rooted
import AnnotatedLogic.Proofs.Starts
/-!
# Reasoning does not fail

A reasoner that has only been called stops at conflicts and at nothing else: no rule names a component
or a node that is not there.

* `Sound`: worlds belong to components and the firings to come are rooted in the graph. Every call
  keeps this (`kept_sound`), so it holds in every state (`Reachable.sound`).
* `Sound.timestep`, `Sound.runFrom`: a timestep and a run stop at conflicts only.
* `Sound.run`: a run always has a report.
-/

namespace AnnotatedLogic

namespace Reasoner

/-- Worlds belong to components, and the firings to come are rooted in the graph. -/
structure Sound (r : Reasoner) : Prop where
  fits : r.interpretation.Fits
  pending : ∀ f ∈ r.pending, f.grounding.Rooted r.interpretation.graph

/-! ## One timestep -/

section Steps

variable {r : Reasoner} {t : Nat}

/-- A fact passes over a component that is not there. -/
theorem feasible_factEffects (r : Reasoner) (t : Nat) (g : Graph) :
    Feasible r.config r.pairing g (r.factEffects t) := by
  refine .of_possible fun e he => ?_
  obtain ⟨f, -, rfl⟩ := List.mem_map.1 he
  exact .inl rfl

theorem Sound.feasible_dueEffects (h : r.Sound) (t : Nat) :
    Feasible r.config r.pairing r.interpretation.graph (r.dueEffects t) :=
  .flatMap fun f hf => (h.pending f (List.mem_filter.1 hf).1).feasible r.config r.pairing f.rule t 0

theorem feasible_stage {iteration : Nat} {stage : Stage} (hs : stage ∈ r.stages t iteration)
    (i : Interpretation) : Feasible r.config r.pairing i.graph (stage i) := by
  have hrule (rule : Rule) :
      Feasible r.config r.pairing i.graph (rule.stage r.config t iteration i) :=
    .flatMap fun _ hg => (rule.rooted_of_mem_ground hg).feasible r.config r.pairing rule t iteration
  unfold stages at hs
  rcases List.mem_append.1 hs with hs | hs
  · obtain ⟨rule, -, rfl⟩ := List.mem_map.1 hs
    exact hrule rule
  · rw [List.mem_singleton.1 hs]
    exact .flatMap fun rule _ => hrule rule

/-- An iteration grounds its rules in the graph that there is by then, so none of its stages
fails. -/
theorem iterate_over {g : Graph} {w : Work} (hw : w.Over g) (iteration : Nat) :
    (r.iterate t iteration w).1.Over g ∧
      ∀ halt ∈ (r.iterate t iteration w).2, halt.IsConflict :=
  foldUntil_reason (P := Work.Over g)
    (fun _ hs u hu => by
      obtain ⟨hafter, hhalt⟩ := feasible_stage hs u.interpretation u ⟨hu.fits, .refl _⟩
      exact ⟨⟨hafter.fits, hu.grows.trans hafter.grows⟩, hhalt⟩) hw

theorem fixpoint_over {g : Graph} (more : Nat) {w : Work} (hw : w.Over g) (iteration : Nat) :
    (r.fixpoint t more iteration w).1.Over g ∧
      ∀ halt ∈ (r.fixpoint t more iteration w).2, halt.IsConflict := by
  induction more generalizing iteration w with
  | zero =>
    obtain ⟨hafter, hhalt⟩ := r.iterate_over (t := t) (w := { w with progress := .nothing })
      ⟨hw.fits, hw.grows⟩ iteration
    rw [fixpoint_zero]
    exact ⟨⟨hafter.fits, hafter.grows⟩, hhalt⟩
  | succ more ih =>
    obtain ⟨hafter, hhalt⟩ := r.iterate_over (t := t) (w := { w with progress := .nothing })
      ⟨hw.fits, hw.grows⟩ iteration
    rw [fixpoint_succ]
    split
    · exact ih (w := (r.pass t iteration w).total w) ⟨hafter.fits, hafter.grows⟩ (iteration + 1)
    · exact ⟨⟨hafter.fits, hafter.grows⟩, hhalt⟩

theorem Sound.startWork (h : r.Sound) (t : Nat) :
    (r.startWork t).Over r.interpretation.graph := by
  unfold Reasoner.startWork
  split
  · exact ⟨h.fits.reset, .refl _⟩
  · exact ⟨h.fits, .refl _⟩

/-- A timestep stops at conflicts only, and keeps what keeps it from failing. -/
theorem Sound.timestep (h : r.Sound) (t : Nat) :
    (r.timestep t).1.Sound ∧ ∀ halt, (r.timestep t).2 = .error halt → halt.IsConflict := by
  have hspend {w : Work} (hw : w.Over r.interpretation.graph) :
      ((r.spend t).withWork w).Sound :=
    ⟨hw.fits, fun f hf => (h.pending f (List.mem_filter.1 hf).1).grows hw.grows⟩
  have hfacts' := r.feasible_factEffects t r.interpretation.graph _ (h.startWork t)
  have hdue' {u : Work} (hu : u.Over r.interpretation.graph) := h.feasible_dueEffects t u hu
  have hloop' {v : Work} (hv : v.Over r.interpretation.graph) :=
    r.fixpoint_over (t := t) (r.config.maxIterations - 1) hv 1
  have hpassage := r.timestep_passage t
  generalize r.timestep t = result at hpassage
  cases hpassage with
  | @facts w halt hfacts =>
    rw [hfacts] at hfacts'
    refine ⟨⟨hfacts'.1.fits, fun f hf => (h.pending f hf).grows hfacts'.1.grows⟩, ?_⟩
    rintro _ ⟨⟩
    exact hfacts'.2 halt rfl
  | @due u w halt hfacts hdue =>
    rw [hfacts] at hfacts'
    have hw := hdue' hfacts'.1
    rw [hdue] at hw
    refine ⟨hspend hw.1, ?_⟩
    rintro _ ⟨⟩
    exact hw.2 halt rfl
  | @loop u v w halt hfacts hdue hloop =>
    rw [hfacts] at hfacts'
    have hv := hdue' hfacts'.1
    rw [hdue] at hv
    have hw := hloop' hv.1
    rw [hloop] at hw
    refine ⟨hspend hw.1, ?_⟩
    rintro _ ⟨⟩
    exact hw.2 halt rfl
  | @completed u v w hfacts hdue hloop =>
    rw [hfacts] at hfacts'
    have hv := hdue' hfacts'.1
    rw [hdue] at hv
    have hw := hloop' hv.1
    rw [hloop] at hw
    refine ⟨⟨hw.1.fits, fun f hf => ?_⟩, by rintro _ ⟨⟩⟩
    rcases List.mem_append.1 hf with hf | hf
    · exact (hspend hw.1).pending f hf
    · obtain ⟨rule, -, hf⟩ := List.mem_flatMap.1 hf
      obtain ⟨g, hg, rfl⟩ := List.mem_map.1 hf
      exact rule.rooted_of_mem_ground hg

end Steps

/-! ## Runs and calls -/

theorem sound_create {graph : Graph} {labelling : Labelling} {config : Config} {r : Reasoner}
    (h : create graph labelling config = .ok r) : r.Sound := by
  unfold create at h
  split at h <;> cases h
  exact ⟨Interpretation.fits_ofGraph .., by simp⟩

/-- Every call keeps a reasoner from failing. -/
theorem kept_sound (rules : Rule → Prop) (facts : Fact → Prop) : Kept rules facts Sound where
  timestep h := (h.timestep _).1
  complete {r s _} h hs := by
    have hstep := (h.timestep r.nextTime).1
    rw [hs] at hstep
    exact ⟨hstep.fits, hstep.pending⟩
  addRule h _ _ := ⟨h.fits, h.pending⟩
  addFact h _ _ _ := ⟨h.fits, h.pending⟩
  setPairing h _ := ⟨h.fits, h.pending⟩

theorem Reachable.sound {rules : Rule → Prop} {facts : Fact → Prop} {r : Reasoner}
    (h : r.Reachable rules facts) : r.Sound :=
  (kept_sound rules facts).reachable sound_create h

theorem Sound.call {r : Reasoner} (h : r.Sound) (c : Call) : (r.call c).1.Sound :=
  (kept_sound (fun _ => True) fun _ => True).call h c.brings_any

theorem Sound.runOf? {r s : Reasoner} (h : r.Sound) {c : Call} {more : Nat}
    (hrun : r.runOf? c = some (s, more)) : s.Sound :=
  (kept_sound (fun _ => True) fun _ => True).runOf? h c.brings_any hrun

/-- A run stops at conflicts only. -/
theorem Sound.runFrom {r : Reasoner} (h : r.Sound) (more : Nat) {t : Nat} (ht : t = r.nextTime) :
    ∀ halt, (r.runFrom more t).2 = .error halt → halt.IsConflict := by
  induction more generalizing r t with
  | zero =>
    have hstep := h.timestep t
    unfold Reasoner.runFrom
    rcases hs : r.timestep t with ⟨s, halt | progress⟩ <;> rw [hs] at hstep
    · rintro _ ⟨⟩
      exact hstep.2 halt rfl
    · rintro _ ⟨⟩
  | succ more ih =>
    have hstep := h.timestep t
    unfold Reasoner.runFrom
    rcases hs : r.timestep t with ⟨s, halt | progress⟩ <;> rw [hs] at hstep
    · rintro _ ⟨⟩
      exact hstep.2 halt rfl
    · have hcomplete : (s.complete t).Sound := ⟨hstep.1.fits, hstep.1.pending⟩
      dsimp only
      split
      · rintro _ ⟨⟩
      · exact ih hcomplete rfl

/-- A run always has a report. -/
theorem Sound.run {r : Reasoner} (h : r.Sound) (more : Nat) :
    ∃ report, (r.run more).2 = .ok report := by
  have hrun := h.runFrom more rfl
  unfold Reasoner.run
  rcases hr : r.runFrom more r.nextTime with ⟨s, (c | e) | early⟩ <;> rw [hr] at hrun
  · exact ⟨_, rfl⟩
  · exact (hrun (.failure e) rfl).elim
  · exact ⟨_, rfl⟩

end Reasoner

end AnnotatedLogic
