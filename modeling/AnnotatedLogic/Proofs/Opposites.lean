import AnnotatedLogic.Proofs.Narrowing
import AnnotatedLogic.Proofs.Static
/-!
# Assertions and opposite labels

An assertion is judged against the world as it is, and only then written, one label after the other. The
verdict has to hold of all these writes, although each of them finds another world than the verdict did.

* `Interval.learning`: what a value becomes by learning a bound. It is the largest interval within both
  (`Interval.contains_learning`), and the second time it stays as it is (`Interval.learning_learning`).
* `World.get?_learnOpposites`: what opposite labels become, and which of them change, however often they
  are listed.
* `World.told`: every label after an assertion that runs into no conflict.
* `World.Undisputed`: no write of an assertion meets a contradiction.
* `World.judge_eq`, `Assertion.conflict?_eq_none_iff`: the verdict on an assertion, by what the world holds.
* `Interpretation.assertOn_told`: an assertion that runs into no conflict commits the world that it tells.
* `Interpretation.assert_as_judged`: when there is a conflict, with which label, and what is written
  otherwise.
-/

namespace AnnotatedLogic

/-! ## Learning a bound -/

namespace Interval

variable {i b k : Interval}

/-- What a value becomes by learning a bound with which it has a degree in common. A bound that says
nothing new leaves it as it is. -/
def learning (i b : Interval) : Interval := if (i.meet b).same i then i else i.meet b

theorem learning_eq_self (h : (i.meet b).same i = true) : i.learning b = i := if_pos h

theorem learning_eq_meet (h : (i.meet b).same i = false) : i.learning b = i.meet b :=
  if_neg (by rw [h]; exact Bool.false_ne_true)

theorem IsProper.learning (hi : i.IsProper) (hb : b.IsProper) : (i.learning b).IsProper := by
  unfold Interval.learning
  split
  · exact hi
  · exact hi.meet hb

theorem same_learning (hi : i.IsProper) (hb : b.IsProper) :
    (i.learning b).same (i.meet b) = true := by
  unfold Interval.learning
  split
  · next h => exact same_symm h
  · exact same_refl (hi.meet hb).isNumeric

theorem isStatic_learning (hi : i.IsProper) (hb : b.IsProper) (h : ¬ i.Disjoint b) :
    (i.learning b).isStatic = i.isStatic := by
  unfold Interval.learning
  split
  · rfl
  · exact (meet_meet hi hb h).2.2

/-- Whether a value that learns becomes another one. -/
theorem same_learning_self (h : i.same i = true) : (i.learning b).same i = (i.meet b).same i := by
  cases hm : (i.meet b).same i with
  | true => rw [learning_eq_self hm, h]
  | false => rw [learning_eq_meet hm, hm]

/-- A value that learns becomes the largest interval within itself and the bound. -/
theorem contains_learning (hi : i.IsProper) (hb : b.IsProper) (h : ¬ i.Disjoint b) :
    i.Contains (i.learning b) ∧ b.Contains (i.learning b) ∧
      ∀ {k : Interval}, i.Contains k → b.Contains k → (i.learning b).Contains k := by
  obtain ⟨hleft, hright, hlargest⟩ := contains_meet hi hb h
  have hsame := same_learning hi hb
  have hto := contains_of_same (same_symm hsame)
  exact ⟨hleft.trans hto, hright.trans hto,
    fun hik hbk => (contains_of_same hsame).trans (hlargest hik hbk)⟩

/-- The bounds of what learns are bounds of one of the two intervals. -/
theorem learning_cases (hi : i.IsProper) (hb : b.IsProper) (h : ¬ i.Disjoint b) :
    ((i.learning b).lower = i.lower ∨ (i.learning b).lower = b.lower) ∧
      ((i.learning b).upper = i.upper ∨ (i.learning b).upper = b.upper) := by
  unfold learning
  split
  · exact ⟨.inl rfl, .inl rfl⟩
  · unfold meet
    dsimp only
    rw [if_neg (meet_of_not_disjoint hi hb h)]
    constructor
    · show i.lower.larger b.lower = _ ∨ i.lower.larger b.lower = _
      unfold Degree.larger
      split
      · exact .inl rfl
      · split <;> simp
    · show i.upper.smaller b.upper = _ ∨ i.upper.smaller b.upper = _
      unfold Degree.smaller
      split
      · exact .inl rfl
      · split <;> simp

/-- The second time, the bound says nothing new. -/
theorem learning_again (hi : i.IsProper) (hb : b.IsProper) (h : ¬ i.Disjoint b) :
    ¬ (i.learning b).Disjoint b ∧
      ((i.learning b).meet b).same (i.learning b) = true := by
  have hproper := hi.learning hb
  obtain ⟨-, hright, -⟩ := contains_learning hi hb h
  have hself := contains_refl hproper.isNumeric
  have hdisjoint := not_disjoint_of_contains hself hright hproper.2.2
  obtain ⟨hmeet, -, hlargest⟩ := contains_meet hproper hb hdisjoint
  exact ⟨hdisjoint, same_of_contains (hlargest hself hright) hmeet⟩

theorem learning_learning (hi : i.IsProper) (hb : b.IsProper) (h : ¬ i.Disjoint b) :
    (i.learning b).learning b = i.learning b :=
  learning_eq_self (learning_again hi hb h).2

end Interval

open AnnotatedLogic.Interval

namespace World

variable {w : World} {label l : Label} {b c : Interval} {labels opposites : List Label}

theorem bound_congr {v : World} (h : v.get? l = w.get? l) : v.bound l = w.bound l := by
  unfold bound
  rw [h]

/-! ## Opposite labels -/

/-- A label of which the bound has a degree in common with a new one keeps its value, or it takes the
meet and this is the change. -/
theorem learnFor_cases (h : ¬ (w.bound label).Disjoint b) (cause : Cause) :
    (((w.bound label).meet b).same (w.bound label) = true ∧ w.learnFor cause b label = (w, [])) ∨
      (((w.bound label).meet b).same (w.bound label) = false ∧
        w.learnFor cause b label = (w.put label ((w.bound label).meet b),
          [⟨label, w.bound label, (w.bound label).meet b, cause, true⟩])) := by
  unfold learnFor learn preview
  dsimp only
  rw [if_neg h]
  cases ((w.bound label).meet b).same (w.bound label) with
  | true => exact .inl ⟨rfl, rfl⟩
  | false => exact .inr ⟨rfl, rfl⟩

theorem bound_addLabel (w : World) (label : Label) : (w.addLabel label).bound label = w.bound label :=
  bound_of_get? (by rw [get?_addLabel, if_pos rfl])

/-- What becomes of the labels when one of them learns the complement of an opposite one, and which of
them change. -/
theorem learnOpposite_view (h : ¬ (w.bound label).Disjoint c) :
    (w.learnOpposite c label).1.get? l =
        (if l = label ∧ w.isStatic label = false then some ((w.bound label).learning c)
          else w.get? l) ∧
      (l ∈ (w.learnOpposite c label).2.map (·.label) ↔
        l = label ∧ w.isStatic label = false ∧
          ((w.bound label).meet c).same (w.bound label) = false) := by
  unfold learnOpposite
  cases hs : w.isStatic label with
  | true => simp
  | false =>
    rw [if_neg Bool.false_ne_true]
    have hcases (h : ¬ ((w.addLabel label).bound label).Disjoint c) := learnFor_cases h
    rw [w.bound_addLabel] at hcases
    rcases hcases h .pairing with ⟨hsame, hlearn⟩ | ⟨hsame, hlearn⟩ <;> rw [hlearn]
    · rw [get?_addLabel, learning_eq_self hsame, hsame]
      simp
    · rw [get?_put, get?_addLabel, learning_eq_meet hsame, hsame]
      by_cases hl : l = label <;> simp [hl]

/-- After one label has learnt the complement, every label is as it was, or it has learnt it. -/
theorem bound_learnOpposite (h : ¬ (w.bound label).Disjoint c) :
    (w.learnOpposite c label).1.bound l =
      if l = label ∧ w.isStatic label = false then (w.bound l).learning c else w.bound l := by
  obtain ⟨hget, -⟩ := learnOpposite_view (l := l) h
  split at hget
  · next hl =>
    rw [if_pos hl, hl.1]
    exact bound_of_get? (hl.1 ▸ hget)
  · next hl =>
    rw [if_neg hl]
    exact bound_congr hget

theorem isStatic_learnOpposite (hw : w.All IsProper) (hc : c.IsProper)
    (h : ¬ (w.bound label).Disjoint c) : (w.learnOpposite c label).1.isStatic l = w.isStatic l := by
  rw [← isStatic_bound, ← isStatic_bound, bound_learnOpposite h]
  split
  · next hl =>
    rw [hl.1]
    exact isStatic_learning (hw.bound closed_isProper label) hc h
  · rfl

/-- Opposite labels that all have a degree in common with the complement learn it, except for those
that are static. It does not matter how often or in which order they are listed. -/
theorem get?_learnOpposites (hw : w.All IsProper) (hc : c.IsProper)
    (h : ∀ q ∈ labels, ¬ (w.bound q).Disjoint c) :
    (changeEach (learnOpposite c) w labels).1.get? l =
        (if l ∈ labels ∧ w.isStatic l = false then some ((w.bound l).learning c) else w.get? l) ∧
      (l ∈ (changeEach (learnOpposite c) w labels).2.map (·.label) ↔
        l ∈ labels ∧ w.isStatic l = false ∧ ((w.bound l).meet c).same (w.bound l) = false) := by
  induction labels generalizing w with
  | nil => simp [changeEach]
  | cons o labels ih =>
    have ho := h o (by simp)
    have hbound (q : Label) := bound_learnOpposite (l := q) ho
    have hstatic (q : Label) := isStatic_learnOpposite (l := q) hw hc ho
    have hedits : Edits IsProper w (w.learnOpposite c o).2 (w.learnOpposite c o).1 :=
      edits_learnOpposite hc w o
    have hagain (q : Label) (hq : q = o ∧ w.isStatic o = false) :=
      learning_again (hw.bound closed_isProper q) hc (hq.1 ▸ ho)
    obtain ⟨hget, hmem⟩ := ih (hedits.all closed_isProper hw) fun q hq => by
      rw [hbound]
      split
      · next hqo => exact (hagain q hqo).1
      · exact h q (by simp [hq])
    rw [hstatic, hbound] at hget hmem
    show (changeEach (learnOpposite c) (w.learnOpposite c o).1 labels).1.get? l = _ ∧
      (l ∈ ((w.learnOpposite c o).2 ++
        (changeEach (learnOpposite c) (w.learnOpposite c o).1 labels).2).map (·.label) ↔ _)
    obtain ⟨hget', hmem'⟩ := learnOpposite_view (l := l) ho
    rw [List.map_append, List.mem_append, hget, hmem, hget', hmem']
    by_cases hlo : l = o ∧ w.isStatic o = false
    · -- The label learns now; listed once more, it learns nothing new.
      rw [if_pos hlo, (hagain l hlo).2,
        learning_learning (hw.bound closed_isProper l) hc (hlo.1 ▸ ho)]
      obtain ⟨rfl, hs⟩ := hlo
      simp [hs]
    · rw [if_neg hlo]
      by_cases hl : l = o
      · subst hl
        have hs : w.isStatic l = true := by simpa using hlo
        simp [hs]
      · simp [hl]

/-! ## All labels of a world -/

/-- Whether the label narrows by learning the bound. -/
def Narrows (w : World) (label : Label) (b : Interval) : Prop :=
  ((w.bound label).meet b).same (w.bound label) = false

instance (w : World) (label : Label) (b : Interval) : Decidable (w.Narrows label b) :=
  inferInstanceAs (Decidable (_ = _))

/-- What a label becomes by an assertion that runs into no conflict. The label of the assertion learns the
bound. If this narrows it, the opposite labels learn the complement, except for those that are static. -/
def told (w : World) (label : Label) (b : Interval) (opposites : List Label) (l : Label) :
    Option Interval :=
  if l = label then some ((w.bound label).learning b)
  else if w.Narrows label b ∧ l ∈ opposites ∧ w.isStatic l = false then
    some ((w.bound l).learning ((w.bound label).meet b).complement)
  else w.get? l

variable {v : World}

theorem bound_of_told (h : v.get? l = w.told label b opposites l) :
    v.bound l =
      if l = label then (w.bound label).learning b
      else if w.Narrows label b ∧ l ∈ opposites ∧ w.isStatic l = false then
        (w.bound l).learning ((w.bound label).meet b).complement
      else w.bound l := by
  unfold told at h
  split at h
  · next hl =>
    rw [if_pos hl]
    exact bound_of_get? h
  · next hl =>
    rw [if_neg hl]
    split at h
    · next hlearns =>
      rw [if_pos hlearns]
      exact bound_of_get? h
    · next hlearns =>
      rw [if_neg hlearns]
      exact bound_congr h

/-- No bound that an assertion writes contradicts what its label holds by then: neither the meet written
onto its own label, nor the complement of the meet written onto the opposite ones. -/
structure Undisputed (w : World) (label : Label) (b : Interval) (opposites : List Label) (cause : Cause) :
    Prop where
  own : ¬ (w.bound label).Disjoint b
  opposite : ∀ before q after, opposites = before ++ q :: after →
    ¬ ((w.learnAll label b before cause).1.bound q).Disjoint b.complement

/-- What a label and its opposites have become after the label has narrowed to the meet, and which labels
have changed. -/
theorem learnAll_view (hw : w.All IsProper) (hb : b.IsProper) (hown : ¬ (w.bound label).Disjoint b)
    (hnarrows : w.Narrows label b) (hl : label ∉ opposites)
    (h : ∀ q ∈ opposites, ¬ (w.bound q).Disjoint ((w.bound label).meet b).complement)
    (cause : Cause) :
    (w.learnAll label ((w.bound label).meet b) opposites cause).1.get? l
        = w.told label b opposites l ∧
      (l ∈ (w.learnAll label ((w.bound label).meet b) opposites cause).2.map (·.label) ↔
        l = label ∨ l ∈ opposites ∧ w.isStatic l = false ∧
          w.Narrows l ((w.bound label).meet b).complement) := by
  have hbound := hw.bound closed_isProper label
  have hmet := hbound.meet hb
  have hpreview : w.preview label b = .changed (w.bound label) ((w.bound label).meet b) := by
    unfold preview
    dsimp only
    rw [if_neg hown, show ((w.bound label).meet b).same (w.bound label) = false from hnarrows]
    rfl
  have hfirst : w.learnFor cause ((w.bound label).meet b) label
      = (w.put label ((w.bound label).meet b),
          [⟨label, w.bound label, (w.bound label).meet b, cause, true⟩]) := by
    unfold learnFor learn
    rw [preview_meet hw hb hpreview]
  have hother {q : Label} (hq : q ≠ label) :
      (w.put label ((w.bound label).meet b)).get? q = w.get? q := by rw [get?_put, if_neg hq]
  have hfree : ∀ q ∈ opposites, ¬ ((w.put label ((w.bound label).meet b)).bound q).Disjoint
      ((w.bound label).meet b).complement := fun q hq => by
    rw [bound_congr (hother (ne_of_mem_of_not_mem hq hl))]
    exact h q hq
  obtain ⟨hget, hmem⟩ :=
    get?_learnOpposites (l := l) (hw.put hmet) (closed_isProper.complement hmet) hfree
  unfold learnAll
  rw [hfirst]
  dsimp only
  rw [hget, List.map_append, List.mem_append, hmem]
  unfold told
  by_cases hlabel : l = label
  · subst hlabel
    simp [hl, get?_put, learning_eq_meet hnarrows]
  · rw [isStatic_congr (hother hlabel), bound_congr (hother hlabel), hother hlabel]
    simp only [hlabel, hnarrows, if_false, true_and, List.map_cons, List.map_nil, List.mem_singleton,
      false_or]
    exact Iff.rfl

/-- An assertion that is judged to narrow its label, by what holds before it, writes nothing that meets a
contradiction. -/
theorem undisputed_of_narrows (hw : w.All IsProper) (hb : b.IsProper) (hown : ¬ (w.bound label).Disjoint b)
    (hnarrows : w.Narrows label b) (hl : label ∉ opposites)
    (h : ∀ q ∈ opposites, ¬ (w.bound q).Disjoint ((w.bound label).meet b).complement)
    (cause : Cause) : w.Undisputed label ((w.bound label).meet b) opposites cause := by
  have hbound := hw.bound closed_isProper label
  have hcomplement := closed_isProper.complement (hbound.meet hb)
  refine ⟨(meet_meet hbound hb hown).1, fun before q after heq => ?_⟩
  have hbefore {p : Label} (hp : p ∈ before) : p ∈ opposites := heq ▸ List.mem_append_left _ hp
  have hq : q ∈ opposites := by simp [heq]
  obtain ⟨hget, -⟩ := learnAll_view (l := q) hw hb hown hnarrows (fun h => hl (hbefore h))
    (fun p hp => h p (hbefore hp)) cause
  rw [bound_of_told hget, if_neg (ne_of_mem_of_not_mem hq hl)]
  split
  · exact (learning_again (hw.bound closed_isProper q) hcomplement (h q hq)).1
  · exact h q hq

/-- The labels that an assertion without conflict changes. -/
theorem same_bound_of_told (hw : w.All IsProper) (hl : label ∉ opposites)
    (h : v.get? l = w.told label b opposites l) :
    (v.bound l).same (w.bound l) = false ↔
      w.Narrows label b ∧ (l = label ∨ l ∈ opposites ∧ w.isStatic l = false ∧
        w.Narrows l ((w.bound label).meet b).complement) := by
  have hsame (l : Label) : (w.bound l).same (w.bound l) = true :=
    same_refl (hw.bound closed_isProper l).isNumeric
  rw [bound_of_told h]
  unfold Narrows
  by_cases hlabel : l = label
  · subst hlabel
    rw [if_pos rfl, same_learning_self (hsame l)]
    simp [hl]
  · rw [if_neg hlabel]
    split
    · next hlearns =>
      obtain ⟨hnarrows, hmem, hs⟩ := hlearns
      rw [same_learning_self (hsame l)]
      simp [hlabel, hmem, hs, show _ = false from hnarrows]
    · next hlearns =>
      rw [hsame]
      simp only [Bool.true_eq_false, false_iff]
      rintro ⟨hnarrows, hl' | ⟨hmem, hs, -⟩⟩
      · exact hlabel hl'
      · exact hlearns ⟨hnarrows, hmem, hs⟩

theorem forall_mem_changeEach {P : Change → Prop} {f : World → Label → World × List Change}
    (h : ∀ v l, ∀ c ∈ (f v l).2, P c) (w : World) (labels : List Label) :
    ∀ c ∈ (changeEach f w labels).2, P c := by
  induction labels generalizing w with
  | nil => simp [changeEach]
  | cons l labels ih => exact List.forall_mem_append.2 ⟨h w l, ih (f w l).1⟩

/-- What labels learn is no resolution of a contradiction. -/
theorem consistent_learnAll (w : World) (label : Label) (b : Interval) (opposites : List Label)
    (cause : Cause) : ∀ c ∈ (w.learnAll label b opposites cause).2, c.consistent = true := by
  have hlearn (cause : Cause) (b : Interval) (v : World) (l : Label) :
      ∀ c ∈ (v.learnFor cause b l).2, c.consistent = true := by
    unfold learnFor
    split <;> simp
  refine List.forall_mem_append.2 ⟨hlearn cause b w label, forall_mem_changeEach (fun v l => ?_) _ _⟩
  unfold learnOpposite
  split
  · simp
  · exact hlearn .pairing b.complement _ l

/-! ## Verdicts -/

/-- The verdict on an assertion by what the world holds. -/
theorem judge_eq (w : World) (label : Label) (b : Interval) (opposites : List Label) :
    w.judge label b opposites =
      if (w.bound label).Disjoint b then .clashes label (w.bound label) b
      else if w.Narrows label b then
        match w.firstOpposed? ((w.bound label).meet b).complement opposites with
        | some q => .clashes q (w.bound q) ((w.bound label).meet b).complement
        | none => .narrows ((w.bound label).meet b)
      else .nothingNew := by
  unfold judge preview
  dsimp only
  by_cases hdisjoint : (w.bound label).Disjoint b
  · rw [if_pos hdisjoint, if_pos hdisjoint]
  · rw [if_neg hdisjoint, if_neg hdisjoint]
    by_cases hnarrows : w.Narrows label b
    · rw [if_pos hnarrows, show ((w.bound label).meet b).same (w.bound label) = false from hnarrows]
      rfl
    · rw [if_neg hnarrows, if_pos (Bool.eq_true_of_not_eq_false hnarrows)]

end World

namespace Pairing

variable {p : Pairing} {a b : Label}

theorem opposite?_eq_some {pair : Label × Label} :
    opposite? a pair = some b ↔ pair = (a, b) ∨ pair = (b, a) := by
  obtain ⟨x, y⟩ := pair
  unfold opposite?
  rw [Prod.mk.injEq, Prod.mk.injEq]
  by_cases hx : x = a
  · subst hx
    rw [if_pos rfl]
    simp only [Option.some.injEq, true_and]
    exact ⟨.inl, fun h => h.elim id fun h => h.2.trans h.1⟩
  · rw [if_neg hx]
    by_cases hy : y = a <;> simp [hx, hy]

theorem mem_partners_iff : b ∈ p.partners a ↔ (a, b) ∈ p.pairs ∨ (b, a) ∈ p.pairs := by
  unfold partners
  simp only [List.mem_filterMap, opposite?_eq_some]
  constructor
  · rintro ⟨pair, hmem, rfl | rfl⟩
    · exact .inl hmem
    · exact .inr hmem
  · rintro (hmem | hmem)
    · exact ⟨_, hmem, .inl rfl⟩
    · exact ⟨_, hmem, .inr rfl⟩

theorem mem_partners_comm : b ∈ p.partners a ↔ a ∈ p.partners b := by
  rw [mem_partners_iff, mem_partners_iff, or_comm]

/-- No label is opposite to itself if none is paired with itself. -/
theorem not_mem_partners_self (h : ∀ pair ∈ p.pairs, pair.1 ≠ pair.2) (label : Label) :
    label ∉ p.partners label := by
  rw [mem_partners_iff, or_self]
  exact fun hmem => h _ hmem rfl

end Pairing

variable {config : Config} {pairing : Pairing} {i : Interpretation} {a : Assertion} {w : World}

/-- An assertion runs into no conflict, although its label is not static, if its bound has a degree in
common with the label and, where it narrows the label, the complement of the meet has one with each
opposite label. -/
theorem Assertion.conflict?_eq_none_iff (hs : w.isStatic a.label = false) (ha : a.replaces = false) :
    a.conflict? pairing w = none ↔
      ¬ (w.bound a.label).Disjoint a.bound ∧
        (w.Narrows a.label a.bound → ∀ q ∈ pairing.partners a.label,
          ¬ (w.bound q).Disjoint ((w.bound a.label).meet a.bound).complement) := by
  unfold Assertion.conflict?
  rw [hs, ha, World.judge_eq]
  simp only [Bool.false_eq_true, if_false]
  by_cases hdisjoint : (w.bound a.label).Disjoint a.bound
  · simp [hdisjoint]
  · by_cases hnarrows : w.Narrows a.label a.bound
    · cases hopposed : w.firstOpposed? ((w.bound a.label).meet a.bound).complement
          (pairing.partners a.label) with
      | none =>
        unfold World.firstOpposed? at hopposed
        simpa [hdisjoint, hnarrows] using hopposed
      | some q =>
        have hclash := List.find?_some hopposed
        have hmem := List.mem_of_find?_eq_some hopposed
        simp only [hdisjoint, hnarrows, if_false, if_true, reduceCtorEq, not_false_eq_true, true_and,
          forall_const, false_iff]
        exact fun hall => hall q hmem (of_decide_eq_true hclash)
    · simp [hdisjoint, hnarrows]

namespace Interpretation

/-! ## Assertions -/

/-- An assertion that runs into no conflict commits the world that it tells, and logs the labels of which
the bounds have changed. -/
theorem assertOn_told (i : Interpretation) (config : Config) (hw : w.All IsProper)
    (hb : a.bound.IsProper) (hs : w.isStatic a.label = false) (ha : a.replaces = false)
    (hl : a.label ∉ pairing.partners a.label) (hc : a.conflict? pairing w = none) :
    ∃ v changes, i.assertOn config pairing a w = i.commit config a (a.freeze v) changes "" none ∧
      (∀ l, v.get? l = w.told a.label a.bound (pairing.partners a.label) l) ∧
      ∀ l, l ∈ (changes.filter (·.consistent)).map (·.label) ↔ (v.bound l).same (w.bound l) = false := by
  obtain ⟨hown, hopposites⟩ := (Assertion.conflict?_eq_none_iff hs ha).1 hc
  have hjudge := w.judge_eq a.label a.bound (pairing.partners a.label)
  rw [if_neg hown] at hjudge
  by_cases hnarrows : w.Narrows a.label a.bound
  · have hopposed : w.firstOpposed? ((w.bound a.label).meet a.bound).complement
        (pairing.partners a.label) = none :=
      List.find?_eq_none.2 fun q hq => by simpa using hopposites hnarrows q hq
    rw [if_pos hnarrows, hopposed] at hjudge
    have hview (l : Label) := World.learnAll_view (l := l) hw hb hown hnarrows hl
      (hopposites hnarrows) a.source.cause
    refine ⟨_, _, assertOn_narrows hs ha hjudge, fun l => (hview l).1, fun l => ?_⟩
    rw [List.filter_eq_self.2 (World.consistent_learnAll _ _ _ _ _), (hview l).2,
      World.same_bound_of_told hw hl (hview l).1]
    simp only [hnarrows, true_and]
  · rw [if_neg hnarrows] at hjudge
    have hview (l : Label) :
        (w.addLabel a.label).get? l = w.told a.label a.bound (pairing.partners a.label) l := by
      unfold World.told
      rw [World.get?_addLabel]
      split
      · rw [learning_eq_self (Bool.eq_true_of_not_eq_false hnarrows)]
      · simp [hnarrows]
    refine ⟨w.addLabel a.label, [], ?_, hview, fun l => ?_⟩
    · rw [assertOn_nothingNew hs ha hjudge, commit_nil]
    · rw [World.same_bound_of_told hw hl (hview l)]
      simp [hnarrows]

/-- The conflict that an assertion runs into: with its own label, or else with the first opposite label
that clashes. -/
theorem eq_of_conflict? {c : Conflict} (hc : a.conflict? pairing w = some c) :
    if (w.bound a.label).Disjoint a.bound then
      c = ⟨a.component, a.label, a.label, w.bound a.label, a.bound, false⟩
    else
      w.firstOpposed? ((w.bound a.label).meet a.bound).complement (pairing.partners a.label)
          = some c.clashing ∧
        c = ⟨a.component, a.label, c.clashing, w.bound c.clashing,
          ((w.bound a.label).meet a.bound).complement, false⟩ := by
  obtain ⟨-, -, clashing, existing, incoming, hjudge, rfl⟩ := Assertion.conflict?_eq_some.1 hc
  rw [World.judge_eq] at hjudge
  split
  · next hdisjoint =>
    rw [if_pos hdisjoint] at hjudge
    cases hjudge
    rfl
  · next hdisjoint =>
    rw [if_neg hdisjoint] at hjudge
    split at hjudge
    · split at hjudge
      · next q hopposed =>
        cases hjudge
        exact ⟨hopposed, rfl⟩
      · cases hjudge
    · cases hjudge

/-- Every atom after an assertion that runs into no conflict. -/
theorem bound?_assertOn (config : Config) (hi : i.All IsProper) (hw : i.world? a.component = some w)
    (hb : a.bound.IsProper) (hs : w.isStatic a.label = false) (ha : a.replaces = false)
    (hl : a.label ∉ pairing.partners a.label) (hc : a.conflict? pairing w = none) (d : Component)
    (l : Label) :
    if d = a.component ∧ l = a.label then
      ∃ v, (i.assertOn config pairing a w).interpretation.bound? d l = some v ∧
        v.same ((w.bound a.label).meet a.bound) = true
    else if d = a.component ∧ w.Narrows a.label a.bound ∧ l ∈ pairing.partners a.label ∧
        w.isStatic l = false then
      ∃ v, (i.assertOn config pairing a w).interpretation.bound? d l = some v ∧
        v.same ((w.bound l).meet ((w.bound a.label).meet a.bound).complement) = true
    else (i.assertOn config pairing a w).interpretation.bound? d l = i.bound? d l := by
  have hproper := hi _ w hw
  have hbound := hproper.bound closed_isProper
  obtain ⟨v, changes, hafter, hview, -⟩ := assertOn_told i config hproper hb hs ha hl hc
  obtain ⟨-, hworld⟩ := i.commit_view config a (a.freeze v) changes "" none
  have hd : (i.assertOn config pairing a w).interpretation.bound? d l =
      if d = a.component then (a.freeze v).get? l else i.bound? d l := by
    unfold Interpretation.bound?
    rw [hafter, hworld]
    split <;> rfl
  have htold := hview l
  unfold World.told at htold
  rw [hd]
  by_cases hcomponent : d = a.component
  · subst hcomponent
    simp only [if_true, true_and]
    by_cases hlabel : l = a.label
    · -- The value may have become static; its bounds are those of the meet.
      subst hlabel
      rw [if_pos rfl] at htold
      rw [if_pos rfl]
      have hsame := same_learning (hbound a.label) hb
      rcases v.freezes_freeze a a.label with hfreeze | hfreeze <;> rw [hfreeze, htold]
      · exact ⟨_, rfl, hsame⟩
      · exact ⟨_, rfl, hsame⟩
    · rw [if_neg hlabel] at htold
      rw [if_neg hlabel, World.get?_freeze hlabel, htold]
      split
      · next hlearns =>
        exact ⟨_, rfl, same_learning (hbound l) (closed_isProper.complement ((hbound a.label).meet hb))⟩
      · exact (bound?_of_world? hw l).symm
  · simp [hcomponent]

/-- An assertion of a label that is not static, with a bound that narrows, reports a conflict if and only
if the bound contradicts what its label holds, or the meet of both narrows the label and an opposite label,
static or not, contradicts the complement of the meet. It reports the label itself, or else the first such
opposite one. Without a conflict nothing that it writes meets a contradiction: the label holds the meet, if
this narrows it then every opposite label that is not static holds its meet with the complement, and no
other atom changes. -/
theorem assert_as_judged (config : Config) (hi : i.All IsProper)
    (hp : ∀ pair ∈ pairing.pairs, pair.1 ≠ pair.2) (hw : i.world? a.component = some w)
    (hs : w.isStatic a.label = false) (hb : a.bound.IsProper) (ha : a.replaces = false) :
    ∃ response, i.assert config pairing a = .ok response ∧
      let opposites := pairing.partners a.label
      let stored := w.bound a.label
      let met := stored.meet a.bound
      ((∃ c, response.outcome.conflict = some c) ↔
        stored.Disjoint a.bound ∨
          w.Narrows a.label a.bound ∧ ∃ q ∈ opposites, (w.bound q).Disjoint met.complement) ∧
      (∀ c, response.outcome.conflict = some c →
        c.component = a.component ∧ c.label = a.label ∧
          if stored.Disjoint a.bound then
            c.clashing = a.label ∧ c.existing = stored ∧ c.incoming = a.bound
          else
            (opposites.find? fun q => decide ((w.bound q).Disjoint met.complement)) = some c.clashing ∧
              c.existing = w.bound c.clashing ∧ c.incoming = met.complement) ∧
      (response.outcome.conflict = none →
        (w.Narrows a.label a.bound → w.Undisputed a.label met opposites a.source.cause) ∧
          ∀ d l,
            if d = a.component ∧ l = a.label then
              ∃ v, response.interpretation.bound? d l = some v ∧ v.same met = true
            else if d = a.component ∧ w.Narrows a.label a.bound ∧ l ∈ opposites ∧ w.isStatic l = false then
              ∃ v, response.interpretation.bound? d l = some v ∧
                v.same ((w.bound l).meet met.complement) = true
            else response.interpretation.bound? d l = i.bound? d l) := by
  have hproper := hi _ w hw
  have hl := Pairing.not_mem_partners_self hp a.label
  have hnone : a.conflict? pairing w = none ↔ _ := Assertion.conflict?_eq_none_iff hs ha
  refine ⟨_, assert_of_world? config pairing hw, ?_, fun c hc => ?_, fun hc => ?_⟩
  · rw [exists_conflict_assertOn, ← Option.ne_none_iff_exists', ne_eq, hnone]
    by_cases hdisjoint : (w.bound a.label).Disjoint a.bound <;> simp [hdisjoint]
  · rw [conflict_assertOn] at hc
    obtain ⟨found, hfound, rfl⟩ := Option.map_eq_some_iff.1 hc
    have heq := eq_of_conflict? hfound
    split at heq
    · next hdisjoint =>
      rw [heq, if_pos hdisjoint]
      exact ⟨rfl, rfl, rfl, rfl, rfl⟩
    · next hdisjoint =>
      obtain ⟨hopposed, heq⟩ := heq
      rw [if_neg hdisjoint]
      exact ⟨congrArg Conflict.component heq, congrArg Conflict.label heq, hopposed,
        congrArg Conflict.existing heq, congrArg Conflict.incoming heq⟩
  · rw [conflict_assertOn, Option.map_eq_none_iff] at hc
    obtain ⟨hown, hopposites⟩ := hnone.1 hc
    exact ⟨fun hnarrows => World.undisputed_of_narrows hproper hb hown hnarrows hl
      (hopposites hnarrows) a.source.cause, bound?_assertOn config hi hw hb hs ha hl hc⟩

/-- Labels that are paired twice: the opposite one learns the complement twice, and a static one keeps
its value. -/
theorem assert_as_judged_repeated :
    let c : Component := .node ⟨"A"⟩
    let w := (World.empty.put ⟨"q"⟩ (.fresh 0.25 1)).put ⟨"s"⟩ ⟨0, 1, 0, 1, true⟩
    let i := (ofGraph (Graph.empty.addNode ⟨"A"⟩) {}).putWorld c w
    let pairing : Pairing := ⟨[(⟨"p"⟩, ⟨"q"⟩), (⟨"p"⟩, ⟨"s"⟩), (⟨"q"⟩, ⟨"p"⟩)]⟩
    let a : Assertion :=
      ⟨c, ⟨"p"⟩, .fresh 0.5 1, 0, 0, .fact, "half", false, false, .ignore, []⟩
    ∃ response, i.assert .standard pairing a = .ok response ∧ response.outcome.conflict = none ∧
      w.Undisputed ⟨"p"⟩ ⟨0.5, 1, 0, 1, false⟩ [⟨"q"⟩, ⟨"s"⟩, ⟨"q"⟩] .fact ∧
      (∃ v, response.interpretation.bound? c ⟨"q"⟩ = some v ∧ v.same (.fresh 0.25 0.5) = true) ∧
      response.interpretation.bound? c ⟨"s"⟩ = some ⟨0, 1, 0, 1, true⟩ := by
  intro c w i pairing a
  have hw : i.world? c = some w := by
    rw [world?_putWorld, if_pos rfl]
  have hproper : w.All IsProper :=
    World.All.put (World.All.put (fun _ _ h => by cases h) (by decide +kernel)) (by decide +kernel)
  have hi : i.All IsProper := (all_ofGraph closed_isProper _ _).putWorld hproper c
  have hp : ∀ pair ∈ pairing.pairs, pair.1 ≠ pair.2 := by decide +kernel
  obtain ⟨response, hassert, hconflict, -, hafter⟩ :=
    assert_as_judged (a := a) .standard hi hp hw (by decide +kernel) (by decide +kernel) rfl
  have hnone : response.outcome.conflict = none := by
    refine Option.eq_none_iff_forall_ne_some.2 fun conflict hsome => ?_
    exact absurd (hconflict.1 ⟨conflict, hsome⟩) (by decide +kernel)
  obtain ⟨hundisputed, hatoms⟩ := hafter hnone
  have hq := hatoms c ⟨"q"⟩
  have hs := hatoms c ⟨"s"⟩
  rw [if_neg (by decide +kernel), if_pos (by decide +kernel)] at hq
  rw [if_neg (by decide +kernel), if_neg (by decide +kernel)] at hs
  obtain ⟨v, hv, hsame⟩ := hq
  have hmet : (w.bound a.label).meet a.bound = ⟨0.5, 1, 0, 1, false⟩ := by decide +kernel
  rw [hmet] at hundisputed
  exact ⟨response, hassert, hnone, hundisputed (by decide +kernel),
    ⟨v, hv, same_trans hsame (by decide +kernel)⟩, hs.trans (by decide +kernel)⟩

end Interpretation

end AnnotatedLogic
