import AnnotatedLogic.Proofs.Gathering
import AnnotatedLogic.Proofs.Interpretation
import AnnotatedLogic.Proofs.Reading
/-!
# Values that become static

That a value becomes static is a change that no outcome reports. It does no harm to the groundings
of rules: they stay as they are, or go away.

* `World.Freezes`, `Interpretation.Freezes`: nothing happens except that values become static.
* `World.Freezes.get?_eq`: what is not static afterwards is as it was.
* `Rule.mem_ground_of_freezes`: every grounding that is there afterwards was there before.
-/

namespace AnnotatedLogic

namespace World

/-- The same labels with the same values, except that some of them have become static. -/
def Freezes (w u : World) : Prop :=
  ∀ label, u.get? label = w.get? label ∨ u.get? label = (w.get? label).map (·.withStatic true)

namespace Freezes

variable {w v u : World}

theorem refl (w : World) : w.Freezes w := fun _ => .inl rfl

theorem trans (hwv : w.Freezes v) (hvu : v.Freezes u) : w.Freezes u := by
  intro label
  rcases hvu label with hu | hu <;> rcases hwv label with hv | hv <;> rw [hv] at hu
  · exact .inl hu
  · exact .inr hu
  · exact .inr hu
  · rw [Option.map_map] at hu
    exact .inr hu

theorem alike (h : w.Freezes u) : w.Alike u := by
  intro label
  rcases h label with hu | hu
  · rw [hu]
  · rw [hu, Option.map_map]
    rfl

theorem get?_eq_none (h : w.Freezes u) {label : Label} :
    u.get? label = none ↔ w.get? label = none := by
  rcases h label with hu | hu
  · rw [hu]
  · rw [hu, Option.map_eq_none_iff]

theorem contains (h : w.Freezes u) (label : Label) : u.contains label = w.contains label := by
  unfold World.contains
  rcases h label with hu | hu
  · rw [hu]
  · rw [hu, Option.isSome_map]

theorem isStatic (h : w.Freezes u) {label : Label} (hs : w.isStatic label = true) :
    u.isStatic label = true := by
  unfold World.isStatic at hs ⊢
  rcases h label with hu | hu
  · rw [hu]
    exact hs
  · rw [hu]
    cases hw : w.get? label with
    | none =>
      rw [hw] at hs
      exact hs
    | some i => rfl

/-- What is not static afterwards is as it was. -/
theorem get?_eq (h : w.Freezes u) {label : Label} (hs : u.isStatic label = false) :
    u.get? label = w.get? label := by
  rcases h label with hu | hu
  · exact hu
  · unfold World.isStatic at hs
    rw [hu] at hs ⊢
    cases hw : w.get? label with
    | none => rfl
    | some i =>
      rw [hw] at hs
      cases hs

/-- Whether two intervals have a degree in common does not depend on what is static. -/
theorem disjoint_bound (h : w.Freezes u) (label : Label) (b : Interval) :
    (u.bound label).Disjoint b ↔ (w.bound label).Disjoint b := by
  unfold World.bound
  rcases h label with hu | hu
  · rw [hu]
  · rw [hu]
    cases w.get? label <;> exact Iff.rfl

end Freezes

theorem freezes_setStatic (w : World) (label : Label) : w.Freezes (w.setStatic label true) := by
  intro other
  rw [get?_setStatic]
  split
  · next h =>
    rw [h]
    exact .inr rfl
  · exact .inl rfl

theorem freezes_freeze (w : World) (a : Assertion) : w.Freezes (a.freeze w) := by
  unfold Assertion.freeze
  split
  · exact w.freezes_setStatic a.label
  · exact .refl w

end World

namespace Interpretation

/-- The same graph, the same log and the same values, except that some of them have become
static. -/
structure Freezes (i j : Interpretation) : Prop where
  graph : j.graph = i.graph
  predicates : j.predicates = i.predicates
  worlds : ∀ c, Option.Rel World.Freezes (i.world? c) (j.world? c)

namespace Freezes

variable {i j k : Interpretation}

theorem refl (i : Interpretation) : i.Freezes i := by
  refine ⟨rfl, rfl, fun c => ?_⟩
  cases i.world? c with
  | none => exact .none
  | some w => exact .some (.refl w)

theorem trans (hij : i.Freezes j) (hjk : j.Freezes k) : i.Freezes k := by
  refine ⟨hjk.graph.trans hij.graph, hjk.predicates.trans hij.predicates, fun c => ?_⟩
  have hi := hij.worlds c
  have hk := hjk.worlds c
  generalize i.world? c = w at hi ⊢
  generalize j.world? c = v at hi hk
  generalize k.world? c = u at hk ⊢
  cases hi with
  | none =>
    cases hk
    exact .none
  | some hwv =>
    cases hk with
    | some hvu => exact .some (hwv.trans hvu)

theorem alike (h : i.Freezes j) : i.Alike j := by
  refine ⟨h.graph.symm, h.predicates.symm, fun c => ?_⟩
  have hc := h.worlds c
  generalize i.world? c = w at hc ⊢
  generalize j.world? c = u at hc ⊢
  cases hc with
  | none => exact .none
  | some hworlds => exact .some hworlds.alike

/-- A component that has a world keeps one. -/
theorem exists_world? (h : i.Freezes j) {c : Component} {w : World} (hw : i.world? c = some w) :
    ∃ u, j.world? c = some u ∧ w.Freezes u := by
  have hc := h.worlds c
  rw [hw] at hc
  generalize j.world? c = o at hc ⊢
  cases hc with
  | some hworlds => exact ⟨_, rfl, hworlds⟩

/-- A component that has a world had one. -/
theorem exists_world?_before (h : i.Freezes j) {c : Component} {u : World}
    (hu : j.world? c = some u) : ∃ w, i.world? c = some w ∧ w.Freezes u := by
  have hc := h.worlds c
  rw [hu] at hc
  generalize i.world? c = o at hc ⊢
  cases hc with
  | some hworlds => exact ⟨_, rfl, hworlds⟩

end Freezes

theorem freezes_putWorld {i : Interpretation} {c : Component} {w u : World}
    (hw : i.world? c = some w) (h : w.Freezes u) : i.Freezes (i.putWorld c u) := by
  refine ⟨rfl, rfl, fun d => ?_⟩
  rw [world?_putWorld]
  split
  · next hd =>
    rw [hd, hw]
    exact .some h
  · exact (Freezes.refl i).worlds d

end Interpretation

/-- A rule that is admitted afterwards was admitted before. -/
theorem Rule.admits_of_freezes {w u : World} (h : w.Freezes u) {r : Rule} {c : Component}
    (hu : r.admits c u = true) : r.admits c w = true := by
  unfold admits at hu ⊢
  rw [r.meetsCriteria_alike h.alike]
  cases hs : w.isStatic r.target with
  | true => rwa [h.isStatic hs] at hu
  | false =>
    obtain ⟨hcriteria, -⟩ := Bool.and_eq_true_iff.1 hu
    rw [hcriteria, Bool.not_false, Bool.or_true, Bool.and_true]

/-- Every grounding that is there afterwards was there before. -/
theorem Rule.mem_ground_of_freezes {i j : Interpretation} (h : i.Freezes j) {r : Rule}
    {config : Config} {g : Grounding} (hg : g ∈ r.ground j config) : g ∈ r.ground i config := by
  rw [ground_eq, h.graph, List.mem_filterMap] at hg
  obtain ⟨c, hc, hg⟩ := hg
  rw [ground_eq, List.mem_filterMap]
  refine ⟨c, hc, ?_⟩
  rcases hu : j.world? c with _ | u
  · unfold groundAt at hg
    rw [hu] at hg
    cases hg
  · obtain ⟨w, hw, hfreezes⟩ := h.exists_world?_before hu
    have hadmitted : r.admits c u = true := by
      unfold groundAt at hg
      rw [hu] at hg
      by_contra hnot
      simp only [hnot] at hg
      cases hg
    have hadmits := r.admits_of_freezes hfreezes hadmitted
    rw [groundAt_alike h.alike hw hu (hadmits.trans hadmitted.symm)]
    exact hg

end AnnotatedLogic
