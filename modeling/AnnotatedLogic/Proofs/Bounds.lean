import AnnotatedLogic.Proofs.Calls
import AnnotatedLogic.Proofs.Gathering
import AnnotatedLogic.Proofs.Interpretation
import AnnotatedLogic.Proofs.Timestep
/-!
# What holds of all truth values

A property of intervals that survives whatever the reasoner does to intervals holds of all truth
values in every state, if it holds of the bounds in the facts and rules it is given.

* `Work.perform_cases`: what one effect does to the interpretation and to the trace.
* `Rule.Carries`, `Effect.Carries`, `Reasoner.Carries`: the bounds that are given or stored have the
  property.
* `Reasoner.kept_carries`: every call keeps `Reasoner.Carries`, so it holds in every state
  (`Reasoner.Reachable.carries`).
-/

namespace AnnotatedLogic

variable {P : Interval → Prop}

/-! ## Interpretations -/

namespace Interpretation

/-- `P` holds of every truth value. -/
def All (P : Interval → Prop) (i : Interpretation) : Prop := ∀ c w, i.world? c = some w → w.All P

theorem All.bound? {i : Interpretation} (h : i.All P) {c : Component} {label : Label}
    {v : Interval} (hv : i.bound? c label = some v) : P v := by
  obtain ⟨w, hw, hv⟩ := Option.bind_eq_some_iff.1 hv
  exact h c w hw label v hv

theorem All.putWorld {i : Interpretation} (h : i.All P) {w : World} (hw : w.All P)
    (c : Component) : (i.putWorld c w).All P := by
  intro d v hv
  rw [world?_putWorld] at hv
  split at hv
  · cases hv
    exact hw
  · exact h d v hv

theorem All.reset {i : Interpretation} (h : i.All P) (hP : Interval.Closed P) :
    i.reset.All P := by
  intro c w hw
  rw [world?_reset] at hw
  obtain ⟨v, hv, rfl⟩ := Option.map_eq_some_iff.1 hw
  exact (h c v hv).reset hP

theorem All.addEdge {i j : Interpretation} (h : i.All P) (hP : Interval.Closed P) {e : Edge}
    (hadd : i.addEdge e = .ok j) : j.All P := by
  rcases addEdge_cases hadd with ⟨-, rfl⟩ | ⟨-, g, -, -, rfl⟩
  · exact h
  · exact All.putWorld (i := { i with graph := g }) h (World.all_ofLabels hP _) _

theorem all_ofGraph (hP : Interval.Closed P) (graph : Graph) (labelling : Labelling) :
    (ofGraph graph labelling).All P := by
  intro c w hw
  obtain ⟨d, -, heq⟩ := List.mem_map.1 (Table.mem_of_get?_ofList hw)
  cases heq
  exact World.all_ofLabels hP _

end Interpretation

/-! ## Effects -/

/-- An effect adds an edge, edits a world, or leaves everything as it is. -/
theorem Work.perform_cases (config : Config) (pairing : Pairing) (w : Work) (e : Effect) :
    (∃ edge j, e = .link edge ∧ w.interpretation.addEdge edge = .ok j ∧
        (w.perform config pairing e).1.interpretation = j ∧
        (w.perform config pairing e).1.trace = w.trace) ∨
      (∃ a v, e = .assert a ∧ w.interpretation.world? a.component = some v ∧
        (w.perform config pairing e).1.interpretation =
          (w.interpretation.assertOn config pairing a v).interpretation ∧
        (w.perform config pairing e).1.trace =
          w.trace ++ (w.interpretation.assertOn config pairing a v).entries) ∨
      ((w.perform config pairing e).1.interpretation = w.interpretation ∧
        (w.perform config pairing e).1.trace = w.trace) := by
  obtain ⟨i, trace, progress⟩ := w
  cases e with
  | link edge =>
    cases h : i.addEdge edge with
    | error error => exact .inr (.inr (by simp only [perform, h, and_self]))
    | ok j => exact .inl ⟨edge, j, rfl, h, by simp only [perform, h, and_self]⟩
  | assert a =>
    cases h : i.world? a.component with
    | none =>
      have hnothing : Outcome.nothing.refusal? = none := rfl
      refine .inr (.inr ?_)
      cases hm : a.missing <;>
        simp only [perform, Interpretation.assert, h, hm, hnothing, Array.appendList_nil, and_self]
    | some v =>
      refine .inr (.inl ⟨a, v, rfl, h, ?_⟩)
      cases hr : (i.assertOn config pairing a v).outcome.refusal? <;>
        simp only [perform, Interpretation.assert, h, hr, and_self]

/-- The bound of an assertion has the property; an edge has none. -/
def Effect.Carries (P : Interval → Prop) : Effect → Prop
  | .link _ => True
  | .assert a => P a.bound

/-- Effects keep what holds of all truth values, and worlds stay with their components. -/
theorem Work.perform_carries (hP : Interval.Closed P) (config : Config) (pairing : Pairing)
    {w : Work} {e : Effect} (he : e.Carries P) (hfits : w.interpretation.Fits)
    (hall : w.interpretation.All P) :
    (w.perform config pairing e).1.interpretation.Fits ∧
      (w.perform config pairing e).1.interpretation.All P := by
  rcases w.perform_cases config pairing e with
    ⟨edge, j, -, hadd, hi, -⟩ | ⟨a, v, rfl, hv, hi, -⟩ | ⟨hi, -⟩
  · rw [hi]
    exact ⟨hfits.addEdge hadd, hall.addEdge hP hadd⟩
  · have hw := hall a.component v hv
    obtain ⟨u, changes, message, hedits, hafter, -, -⟩ :=
      Interpretation.assertOn_edits hP config pairing hv hw he
    rw [hi, hafter, Interpretation.foldl_log]
    exact ⟨hfits.putWorld hv u, hall.putWorld (hedits.all hP hw) a.component⟩
  · rw [hi]
    exact ⟨hfits, hall⟩

/-! ## Groundings -/

/-- A bound that a rule asserts as it is has the property; computed bounds are made of clamped
numbers. -/
def Rule.Carries (P : Interval → Prop) (r : Rule) : Prop := ∀ b, r.head = .bound b → P b

theorem AnnotationFunction.apply_cases (f : AnnotationFunction) (matched : List Matched)
    (weights : List Float) (bias : Float) :
    f.apply matched weights bias = .unknown ∨
      ∃ l u, f.apply matched weights bias = .clamped l u := by
  unfold apply
  dsimp only
  have hpicked (pick : Degree → Degree → Degree) (intervals : List Interval) :
      picked pick intervals = .unknown ∨ ∃ l u, picked pick intervals = .clamped l u := by
    cases intervals with
    | nil => exact .inl rfl
    | cons i rest => exact .inr ⟨_, _, rfl⟩
  cases f with
  | average =>
    dsimp only
    split
    · exact .inr ⟨_, _, rfl⟩
    · exact .inl rfl
  | averageLower =>
    dsimp only
    split
    · exact .inr ⟨_, _, rfl⟩
    · exact .inl rfl
  | maximum => exact hpicked ..
  | minimum => exact hpicked ..
  | weightedSum => exact .inr ⟨_, _, rfl⟩

theorem Rule.headBound_carries (hP : Interval.Given P) {r : Rule} (hr : r.Carries P)
    (findings : List Finding) : P (r.headBound findings) := by
  unfold headBound
  split
  · next b hb => exact hr b hb
  · next f hf =>
    rcases f.apply_cases (findings.map (·.matched)) r.weighting.1 r.weighting.2 with h | ⟨l, u, h⟩
    · dsimp only
      rw [h]
      exact hP.unknown
    · dsimp only
      rw [h]
      exact hP.clamped l u

/-- A grounding asserts what the head makes of the findings at its component. -/
theorem Rule.bound_of_mem_ground {r : Rule} {i : Interpretation} {config : Config} {g : Grounding}
    (h : g ∈ r.ground i config) : ∃ findings, g.bound = r.headBound findings := by
  rw [Rule.ground_eq] at h
  obtain ⟨c, -, hg⟩ := List.mem_filterMap.1 h
  unfold groundAt at hg
  split at hg
  · cases hg
  · split at hg
    · obtain ⟨findings, -, hg⟩ := Option.bind_eq_some_iff.1 hg
      refine ⟨findings, ?_⟩
      unfold groundingOf at hg
      dsimp only at hg
      split at hg <;> cases hg <;> rfl
    · cases hg

/-- A grounding adds edges and asserts its bound or, of an edge, certainty. -/
theorem Rule.mem_effects_cases {r : Rule} {t iteration : Nat} {g : Grounding} {e : Effect}
    (he : e ∈ r.effects t iteration g) :
    (∃ edge, e = .link edge) ∨
      ∃ c label b, e = .assert (r.assertion g t iteration c label b) ∧
        (b = g.bound ∨ b = .certain) := by
  unfold effects at he
  split at he
  · rw [List.mem_singleton] at he
    exact .inr ⟨_, _, _, he, .inl rfl⟩
  · rw [List.mem_append, List.mem_map, List.mem_map] at he
    rcases he with ⟨edge, -, rfl⟩ | ⟨a, ha, rfl⟩
    · exact .inl ⟨edge, rfl⟩
    · obtain ⟨edge, -, ha⟩ := List.mem_flatMap.1 ha
      unfold edgeAssertions at ha
      dsimp only at ha
      rw [List.mem_append, List.mem_singleton] at ha
      rcases ha with ha | rfl
      · split at ha
        · rw [List.mem_singleton] at ha
          rw [ha]
          exact .inr ⟨_, _, _, rfl, .inr rfl⟩
        · cases ha
      · exact .inr ⟨_, _, _, rfl, .inl rfl⟩

theorem Rule.effects_carries (hP : Interval.Given P) {r : Rule} {t iteration : Nat}
    {g : Grounding} (hg : P g.bound) {e : Effect} (he : e ∈ r.effects t iteration g) :
    e.Carries P := by
  rcases r.mem_effects_cases he with ⟨edge, rfl⟩ | ⟨c, label, b, rfl, rfl | rfl⟩
  · trivial
  · exact hg
  · exact hP.certain

/-! ## Reasoners -/

namespace Reasoner

/-- Worlds belong to components, and all bounds that are given or stored have the property. -/
structure Carries (P : Interval → Prop) (r : Reasoner) : Prop where
  fits : r.interpretation.Fits
  all : r.interpretation.All P
  rules : ∀ rule ∈ r.rules, rule.Carries P
  facts : ∀ f ∈ r.facts, P f.bound
  pending : ∀ f ∈ r.pending, P f.grounding.bound

/-- Every effect of a timestep carries the property. -/
theorem Carries.performs (hP : Interval.Closed P) {r : Reasoner} (h : r.Carries P)
    {t iteration : Nat} {e : Effect} (he : r.Performs t iteration e) : e.Carries P := by
  cases he with
  | fact hf => exact h.facts _ hf
  | due hf he => exact Rule.effects_carries hP.toGiven (h.pending _ hf) he
  | rule hr hg he =>
    obtain ⟨findings, hbound⟩ := Rule.bound_of_mem_ground hg
    have hg := Rule.headBound_carries hP.toGiven (h.rules _ hr) findings
    exact Rule.effects_carries hP.toGiven (hbound ▸ hg) he

theorem Carries.startWork (hP : Interval.Closed P) {r : Reasoner} (h : r.Carries P) (t : Nat) :
    (r.startWork t).interpretation.Fits ∧ (r.startWork t).interpretation.All P := by
  unfold Reasoner.startWork
  dsimp only
  split
  · exact ⟨h.fits.reset, h.all.reset hP⟩
  · exact ⟨h.fits, h.all⟩

theorem Carries.timestep (hP : Interval.Closed P) {r : Reasoner} (h : r.Carries P) (t : Nat) :
    (r.timestep t).1.Carries P := by
  obtain ⟨last, hfits, hall⟩ :=
    timestep_invariant (r := r) (t := t) (P := fun _ i _ => i.Fits ∧ i.All P)
      (fun he w hw => w.perform_carries hP r.config r.pairing (h.performs hP he) hw.1 hw.2)
      (fun hw => hw) (h.startWork hP t)
  have hspend : ∀ f ∈ (r.spend t).pending, P f.grounding.bound :=
    fun f hf => h.pending f (List.mem_filter.1 hf).1
  have hpassage := r.timestep_passage t
  generalize r.timestep t = result at hpassage hfits hall
  cases hpassage with
  | facts => exact ⟨hfits, hall, h.rules, h.facts, h.pending⟩
  | due | loop => exact ⟨hfits, hall, h.rules, h.facts, hspend⟩
  | completed =>
    refine ⟨hfits, hall, h.rules, h.facts, ?_⟩
    intro f hf
    rcases List.mem_append.1 hf with hf | hf
    · exact hspend f hf
    · obtain ⟨rule, hrule, hf⟩ := List.mem_flatMap.1 hf
      obtain ⟨g, hg, rfl⟩ := List.mem_map.1 hf
      obtain ⟨findings, hbound⟩ := Rule.bound_of_mem_ground hg
      have hr := h.rules rule (List.mem_filter.1 hrule).1
      exact hbound ▸ Rule.headBound_carries hP.toGiven hr findings

/-- Every call keeps the property. -/
theorem kept_carries (hP : Interval.Closed P) :
    Kept (Rule.Carries P) (fun f => P f.bound) (Carries P) where
  timestep h := h.timestep hP _
  complete {r s _} h hs := by
    have hstep := h.timestep hP r.nextTime
    rw [hs] at hstep
    exact ⟨hstep.fits, hstep.all, hstep.rules, hstep.facts, hstep.pending⟩
  addRule h hrule _ := by
    refine ⟨h.fits, h.all, ?_, h.facts, h.pending⟩
    intro rule hmem
    rcases List.mem_append.1 hmem with hmem | hmem
    · exact h.rules rule hmem
    · rw [List.mem_singleton.1 hmem]
      exact hrule
  addFact h hfact steps _ := by
    refine ⟨h.fits, h.all, h.rules, ?_, h.pending⟩
    intro f hmem
    rcases List.mem_append.1 hmem with hmem | hmem
    · exact h.facts f hmem
    · rw [List.mem_singleton.1 hmem]
      exact hfact
  setPairing h _ := ⟨h.fits, h.all, h.rules, h.facts, h.pending⟩

theorem carries_create (hP : Interval.Closed P) {graph : Graph} {labelling : Labelling}
    {config : Config} {r : Reasoner} (h : create graph labelling config = .ok r) :
    r.Carries P := by
  unfold create at h
  split at h <;> cases h
  exact ⟨Interpretation.fits_ofGraph .., Interpretation.all_ofGraph hP _ _, by simp, by simp, by simp⟩

/-- What holds of all bounds in the facts and rules of all calls holds of all truth values. -/
theorem Reachable.carries (hP : Interval.Closed P) {r : Reasoner}
    (h : r.Reachable (Rule.Carries P) fun f => P f.bound) : r.Carries P :=
  (kept_carries hP).reachable (carries_create hP) h

end Reasoner

end AnnotatedLogic
