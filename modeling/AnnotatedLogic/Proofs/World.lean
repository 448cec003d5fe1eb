import AnnotatedLogic.Interpretation.Assertion
import AnnotatedLogic.Proofs.Interval
/-!
# Worlds and how they change

All changes of a world are made of a few edits of one label each. Proofs about assertions go through
these edits, not through the functions that make them.

* `get?_addLabel`, `get?_overwrite`, `get?_setStatic`, `get?_reset`, `get?_ofLabels`: the view of a
  world after each operation. `bound_of_get?` and `isStatic_of_get?` read it.
* `Edits P w changes v`: edits with bounds that have `P` lead from `w` to `v` and record `changes`.
* `edits_learnAll`, `edits_forceAll`, `edits_forgetAll`, `edits_freeze`: what assertions do to a
  world are edits.
* `Edits.all`, `Edits.exists_get?`: edits keep what holds of all intervals, and leave no label out.
-/

namespace AnnotatedLogic

namespace World

/-! ## The view of a world -/

theorem get?_addLabel (w : World) (label other : Label) :
    (w.addLabel label).get? other = if other = label then some (w.bound label) else w.get? other := by
  unfold addLabel contains bound
  cases h : w.get? label with
  | none =>
    rw [if_neg (by simp), get?_put]
    rfl
  | some i =>
    rw [if_pos (by rfl)]
    split
    · next ho => rw [ho, h]; rfl
    · rfl

theorem get?_overwrite (w : World) (label other : Label) (b : Interval) :
    (w.overwrite label b).get? other =
      if other = label then some ((w.bound label).withBounds b.lower b.upper)
      else w.get? other :=
  get?_put ..

theorem bound_of_get? {w : World} {label : Label} {i : Interval} (h : w.get? label = some i) :
    w.bound label = i := by
  unfold bound
  rw [h]
  rfl

theorem bound_of_get?_eq_none {w : World} {label : Label} (h : w.get? label = none) :
    w.bound label = .unknown := by
  unfold bound
  rw [h]
  rfl

theorem bound_overwrite (w : World) (label : Label) (b : Interval) :
    (w.overwrite label b).bound label = (w.bound label).withBounds b.lower b.upper :=
  bound_of_get? (by rw [get?_overwrite, if_pos rfl])

theorem isStatic_of_get? {w : World} {label : Label} {i : Interval} (h : w.get? label = some i) :
    w.isStatic label = i.isStatic := by
  unfold isStatic
  rw [h]

theorem isStatic_bound (w : World) (label : Label) : (w.bound label).isStatic = w.isStatic label := by
  unfold bound isStatic
  cases w.get? label <;> rfl

theorem get?_setStatic (w : World) (label other : Label) (isStatic : Bool) :
    (w.setStatic label isStatic).get? other =
      if other = label then (w.get? label).map (·.withStatic isStatic) else w.get? other := by
  unfold setStatic
  cases h : w.get? label with
  | none =>
    dsimp only
    split
    · next ho => rw [ho, h]; rfl
    · rfl
  | some i => exact get?_put ..

theorem get?_reset (w : World) (label : Label) :
    w.reset.get? label = (w.get? label).map Interval.reset := by
  unfold reset get?
  dsimp only
  induction w.entries with
  | nil => rfl
  | cons e rest ih =>
    rw [List.map_cons, Entries.find?, Entries.find?]
    split
    · rfl
    · exact ih

theorem get?_foldl_addLabel (labels : List Label) (w : World) (label : Label) :
    (labels.foldl addLabel w).get? label =
      if label ∈ labels then some (w.bound label) else w.get? label := by
  induction labels generalizing w with
  | nil => simp
  | cons l labels ih =>
    have hbound : (w.addLabel l).bound label = w.bound label := by
      unfold bound
      rw [get?_addLabel]
      split
      · next h => rw [h]; rfl
      · rfl
    rw [List.foldl_cons, ih, hbound, get?_addLabel]
    by_cases hmem : label ∈ labels
    · simp [hmem]
    · by_cases hl : label = l
      · subst hl
        simp [hmem]
      · simp [hmem, hl]

/-- A new world knows its labels and nothing of them. -/
theorem get?_ofLabels (labels : List Label) (label : Label) :
    (ofLabels labels).get? label = if label ∈ labels then some .unknown else none :=
  get?_foldl_addLabel labels empty label

/-! ## Edits -/

/-- Edits of single labels, with bounds that have `P`, lead from `w` to another world and record
changes on the way. Only what changes a bound is recorded. -/
inductive Edits (P : Interval → Prop) (w : World) : List Change → World → Prop where
  | refl : Edits P w [] w
  /-- A label is added that says nothing yet. -/
  | addLabel {changes : List Change} {v : World} (h : Edits P w changes v) (label : Label) :
      Edits P w changes (v.addLabel label)
  /-- A label begins or ceases to be static. -/
  | setStatic {changes : List Change} {v : World} (h : Edits P w changes v) (label : Label)
      (isStatic : Bool) : Edits P w changes (v.setStatic label isStatic)
  /-- A label narrows to the meet with a bound. -/
  | learn {changes : List Change} {v : World} (h : Edits P w changes v) {label : Label}
      {b old new : Interval} (hb : P b) (hnew : v.preview label b = .changed old new)
      (cause : Cause) :
      Edits P w (changes ++ [⟨label, old, new, cause, true⟩]) (v.put label new)
  /-- The bounds that a label has are written again. -/
  | rewrite {changes : List Change} {v : World} (h : Edits P w changes v) {label : Label}
      {b : Interval} (hb : P b)
      (hsame : (v.bound label).same ((v.overwrite label b).bound label) = true) :
      Edits P w changes (v.overwrite label b)
  /-- Bounds are written over those of a label. A label that is forgotten is recorded as `unknown`. -/
  | overwrite {changes : List Change} {v : World} (h : Edits P w changes v) {label : Label}
      {b new : Interval} (hb : P b)
      (hnew : new = (v.bound label).withBounds b.lower b.upper ∨ b = .unknown ∧ new = .unknown)
      (cause : Cause) (consistent : Bool) :
      Edits P w (changes ++ [⟨label, v.bound label, new, cause, consistent⟩]) (v.overwrite label b)

namespace Edits

variable {P : Interval → Prop}

theorem trans {w v u : World} {changes others : List Change} (h : Edits P w changes v)
    (h' : Edits P v others u) : Edits P w (changes ++ others) u := by
  induction h' with
  | refl => rwa [List.append_nil]
  | addLabel _ label ih => exact ih.addLabel label
  | setStatic _ label isStatic ih => exact ih.setStatic label isStatic
  | learn _ hb hnew cause ih =>
    rw [← List.append_assoc]
    exact ih.learn hb hnew cause
  | rewrite _ hb hsame ih => exact ih.rewrite hb hsame
  | overwrite _ hb hnew cause consistent ih =>
    rw [← List.append_assoc]
    exact ih.overwrite hb hnew cause consistent

end Edits

variable {P : Interval → Prop}

theorem edits_changeEach {f : World → Label → World × List Change}
    (hf : ∀ w label, Edits P w (f w label).2 (f w label).1) (w : World) (labels : List Label) :
    Edits P w (changeEach f w labels).2 (changeEach f w labels).1 := by
  induction labels generalizing w with
  | nil => exact .refl
  | cons label labels ih => exact (hf w label).trans (ih (f w label).1)

theorem edits_learnFor {b : Interval} (hb : P b) (cause : Cause) (w : World) (label : Label) :
    Edits P w (w.learnFor cause b label).2 (w.learnFor cause b label).1 := by
  unfold learnFor learn
  cases h : w.preview label b with
  | unchanged => exact .refl
  | contradiction existing incoming => exact .refl
  | changed old new => exact Edits.refl.learn hb h cause

theorem edits_learnOpposite {complement : Interval} (hc : P complement) (w : World)
    (label : Label) :
    Edits P w (w.learnOpposite complement label).2 (w.learnOpposite complement label).1 := by
  unfold learnOpposite
  split
  · exact .refl
  · exact (Edits.refl.addLabel label).trans (edits_learnFor hc .pairing _ label)

theorem edits_learnAll {b : Interval} (hb : P b) (hc : P b.complement) (w : World) (label : Label)
    (opposites : List Label) (cause : Cause) :
    Edits P w (w.learnAll label b opposites cause).2 (w.learnAll label b opposites cause).1 :=
  (edits_learnFor hb cause w label).trans (edits_changeEach (edits_learnOpposite hc) _ opposites)

theorem edits_forceFor {b : Interval} (hb : P b) (cause : Cause) (w : World) (label : Label) :
    Edits P w (w.forceFor cause b label).2 (w.forceFor cause b label).1 := by
  unfold forceFor
  dsimp only
  split
  · next hsame => exact Edits.refl.rewrite hb hsame
  · rw [bound_overwrite]
    exact Edits.refl.overwrite hb (.inl rfl) cause true

theorem edits_forceOpposite {complement : Interval} (hc : P complement) (written : Label)
    (w : World) (label : Label) :
    Edits P w (w.forceOpposite written complement label).2
      (w.forceOpposite written complement label).1 := by
  unfold forceOpposite
  split
  · exact .refl
  · exact edits_forceFor hc .pairing w label

theorem edits_forceAll {b : Interval} (hb : P b) (hc : P b.complement) (w : World) (label : Label)
    (opposites : List Label) (cause : Cause) :
    Edits P w (w.forceAll label b opposites cause).2 (w.forceAll label b opposites cause).1 :=
  (edits_forceFor hb cause w label).trans
    (edits_changeEach (edits_forceOpposite hc label) _ opposites)

theorem edits_forgetAll (hu : P .unknown) (w : World) (label : Label) (opposites : List Label)
    (cause : Cause) :
    Edits P w (w.forgetAll label opposites cause).2 (w.forgetAll label opposites cause).1 :=
  edits_changeEach
    (fun _ label => (Edits.refl.overwrite hu (.inr ⟨rfl, rfl⟩) cause false).setStatic label false) w _

theorem edits_freeze {w v : World} {changes : List Change} (h : Edits P w changes v)
    (a : Assertion) : Edits P w changes (a.freeze v) := by
  unfold Assertion.freeze
  split
  · exact h.setStatic a.label true
  · exact h

/-! ## What edits keep -/

/-- `P` holds of every interval of the world. -/
def All (P : Interval → Prop) (w : World) : Prop := ∀ label i, w.get? label = some i → P i

theorem All.bound {w : World} (h : w.All P) (hP : Interval.Closed P) (label : Label) :
    P (w.bound label) := by
  unfold World.bound
  cases hl : w.get? label with
  | none => exact hP.unknown
  | some i => exact h label i hl

theorem All.put {w : World} (h : w.All P) {label : Label} {i : Interval} (hi : P i) :
    (w.put label i).All P := by
  intro other j hj
  rw [get?_put] at hj
  split at hj
  · cases hj
    exact hi
  · exact h other j hj

theorem All.reset {w : World} (h : w.All P) (hP : Interval.Closed P) : w.reset.All P := by
  intro label i hi
  rw [get?_reset] at hi
  obtain ⟨j, hj, rfl⟩ := Option.map_eq_some_iff.1 hi
  exact hP.reset (h label j hj)

theorem all_ofLabels (hP : Interval.Closed P) (labels : List Label) : (ofLabels labels).All P := by
  intro label i hi
  rw [get?_ofLabels] at hi
  split at hi
  · cases hi
    exact hP.unknown
  · cases hi

/-- The interval that a label narrows to. -/
theorem preview_changed {w : World} {label : Label} {b old new : Interval}
    (h : w.preview label b = .changed old new) :
    old = w.bound label ∧ new = (w.bound label).meet b ∧ ¬ (w.bound label).Disjoint b ∧
      ((w.bound label).meet b).same (w.bound label) = false := by
  unfold preview at h
  dsimp only at h
  split at h
  · cases h
  · next hd =>
    split at h
    · cases h
    · next hs =>
      cases h
      exact ⟨rfl, rfl, hd, Bool.eq_false_iff.2 hs⟩

/-- An assertion narrows a label to what the label would learn, if no opposite label clashes. -/
theorem judge_narrows {w : World} {label : Label} {b narrowed : Interval} {opposites : List Label}
    (h : w.judge label b opposites = .narrows narrowed) :
    ∃ old, w.preview label b = .changed old narrowed ∧
      w.firstOpposed? narrowed.complement opposites = none := by
  unfold judge at h
  split at h
  · cases h
  · cases h
  · next old new hpreview =>
    split at h
    · cases h
    · next hopposed =>
      cases h
      exact ⟨old, hpreview, hopposed⟩

/-- Edits keep what holds of all intervals. -/
theorem Edits.all (hP : Interval.Closed P) {w v : World} {changes : List Change}
    (h : Edits P w changes v) (hw : w.All P) : v.All P := by
  induction h with
  | refl => exact hw
  | @addLabel _ v _ label ih =>
    unfold World.addLabel
    split
    · exact ih
    · exact ih.put hP.unknown
  | @setStatic _ v _ label isStatic ih =>
    unfold World.setStatic
    cases hl : v.get? label with
    | none => exact ih
    | some i => exact ih.put (hP.withStatic isStatic (ih label i hl))
  | learn _ hb hnew _ ih =>
    obtain ⟨-, rfl, -, -⟩ := preview_changed hnew
    exact ih.put (hP.meet (ih.bound hP _) hb)
  | rewrite _ hb _ ih => exact ih.put (hP.withBounds (ih.bound hP _) hb)
  | overwrite _ hb _ _ _ ih => exact ih.put (hP.withBounds (ih.bound hP _) hb)

/-- A label that edits leave out was not there before them. -/
theorem Edits.get?_eq_none {P : Interval → Prop} {w v : World} {changes : List Change}
    (h : Edits P w changes v) {label : Label} (hv : v.get? label = none) :
    w.get? label = none := by
  induction h with
  | refl => exact hv
  | addLabel _ other ih =>
    rw [get?_addLabel] at hv
    split at hv
    · cases hv
    · exact ih hv
  | setStatic _ other isStatic ih =>
    rw [get?_setStatic] at hv
    split at hv
    · next ho => exact ih (ho ▸ Option.map_eq_none_iff.1 hv)
    · exact ih hv
  | learn _ _ _ _ ih =>
    rw [get?_put] at hv
    split at hv
    · cases hv
    · exact ih hv
  | rewrite _ _ _ ih | overwrite _ _ _ _ _ ih =>
    rw [get?_overwrite] at hv
    split at hv
    · cases hv
    · exact ih hv

/-- Edits leave no label out. -/
theorem Edits.exists_get? {P : Interval → Prop} {w v : World} {changes : List Change}
    (h : Edits P w changes v) {label : Label} {i : Interval} (hi : w.get? label = some i) :
    ∃ j, v.get? label = some j := by
  refine Option.ne_none_iff_exists'.1 fun hnone => ?_
  rw [h.get?_eq_none hnone] at hi
  cases hi

end World

end AnnotatedLogic
