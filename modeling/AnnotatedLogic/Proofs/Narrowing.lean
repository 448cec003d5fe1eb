import AnnotatedLogic.Proofs.Below
import AnnotatedLogic.Proofs.Frozen
import AnnotatedLogic.Proofs.Lockstep
import AnnotatedLogic.Proofs.Quiet
/-!
# Assertions that narrow

An assertion of a label without opposite ones narrows this label and concerns no other. Unless it runs
into a conflict it leads to a higher interpretation, and it does not lead past one in which its bound
holds.

* `World.Learns`: a label has learned a bound. `World.Learns.below` and
  `World.Learns.below_of_satisfies` say where the world lies afterwards.
* `Interpretation.assertOn_narrows_cases`: what an assertion comes to that runs into no conflict.
* `Work.below_perform`: an assertion leads up.
* `Work.perform_below`: it runs into no conflict and stays below an interpretation in which it holds.
* `Work.perform_silent`: where it reports no change there is none.
-/

namespace AnnotatedLogic

/-! ## Worlds that learn a bound -/

/-- The label has learned the bound: its interval is the largest one within what it was and the bound.
The other labels are as they were. -/
structure World.Learns (w : World) (label : Label) (b : Interval) (v : World) : Prop where
  others : ∀ l, l ≠ label → v.get? l = w.get? l
  learned : ∃ m, v.get? label = some m ∧ m.isStatic = w.isStatic label ∧
    (w.bound label).Contains m ∧ b.Contains m ∧
      ∀ {k : Interval}, (w.bound label).Contains k → b.Contains k → m.Contains k

namespace World

open AnnotatedLogic.Interval

variable {w v u : World} {label : Label} {b : Interval}

/-- What a label is in a higher world lies within what it is here, also if it is not there yet. -/
theorem Below.contains_bound (h : w.Below u) {k : Interval} (hk : u.get? label = some k)
    (hproper : k.IsProper) : (w.bound label).Contains k := by
  cases ha : w.get? label with
  | none =>
    rw [bound_of_get?_eq_none ha]
    exact unknown_contains hproper
  | some a =>
    obtain ⟨k', hk', hwithin⟩ := h.atoms ha
    obtain rfl : k' = k := Option.some.inj (hk'.symm.trans hk)
    rw [bound_of_get? ha]
    exact hwithin

/-- A label that learns leads up. -/
theorem Learns.below (h : w.Learns label b v) (hw : w.All IsProper) : w.Below v := by
  obtain ⟨m, hm, hstatic, hwithin, -⟩ := h.learned
  refine ⟨fun {l a} ha => ?_, fun l => ?_⟩
  · by_cases hl : l = label
    · subst hl
      exact ⟨m, hm, bound_of_get? ha ▸ hwithin⟩
    · exact ⟨a, (h.others l hl).trans ha, contains_refl (hw l a ha).isNumeric⟩
  · by_cases hl : l = label
    · subst hl
      exact (isStatic_of_get? hm).trans hstatic
    · exact isStatic_congr (h.others l hl)

/-- A label that learns does not lead past a world that satisfies the bound. -/
theorem Learns.below_of_satisfies (h : w.Learns label b v) (hwu : w.Below u) (hu : u.All IsProper)
    (hs : u.satisfies label b = true) : v.Below u := by
  obtain ⟨m, hm, hstatic, -, -, hlargest⟩ := h.learned
  obtain ⟨k, hk, hbk⟩ := satisfies_iff.1 hs
  refine ⟨fun {l a} ha => ?_, fun l => ?_⟩
  · by_cases hl : l = label
    · subst hl
      obtain rfl : m = a := Option.some.inj (hm.symm.trans ha)
      exact ⟨k, hk, hlargest (hwu.contains_bound hk (hu l k hk)) hbk⟩
    · exact hwu.atoms ((h.others l hl).symm.trans ha)
  · by_cases hl : l = label
    · subst hl
      rw [hwu.static, isStatic_of_get? hm, hstatic]
    · rw [hwu.static, isStatic_congr (h.others l hl)]

theorem preview_unchanged (h : w.preview label b = .unchanged) :
    ¬ (w.bound label).Disjoint b ∧ ((w.bound label).meet b).same (w.bound label) = true := by
  unfold preview at h
  dsimp only at h
  split at h
  · cases h
  · next hd =>
    split at h
    · next hs => exact ⟨hd, hs⟩
    · cases h

/-- A bound that says nothing new contains what the label is. -/
theorem contains_of_unchanged (hw : w.All IsProper) (hb : b.IsProper)
    (h : w.preview label b = .unchanged) : b.Contains (w.bound label) := by
  obtain ⟨hdisjoint, hsame⟩ := preview_unchanged h
  obtain ⟨-, hwithin, -⟩ := contains_meet (hw.bound closed_isProper label) hb hdisjoint
  exact hwithin.trans (contains_of_same hsame)

/-- The label is there afterwards. -/
theorem learns_addLabel (hw : w.All IsProper) (hb : b.IsProper)
    (h : w.preview label b = .unchanged) : w.Learns label b (w.addLabel label) := by
  refine ⟨fun l hl => ?_, w.bound label, ?_, w.isStatic_bound label, ?_, ?_, fun hk _ => hk⟩
  · rw [get?_addLabel, if_neg hl]
  · rw [get?_addLabel, if_pos rfl]
  · exact contains_refl (hw.bound closed_isProper label).isNumeric
  · exact contains_of_unchanged hw hb h

theorem learns_put (hw : w.All IsProper) (hb : b.IsProper) (h : ¬ (w.bound label).Disjoint b) :
    w.Learns label b (w.put label ((w.bound label).meet b)) := by
  have hbound := hw.bound closed_isProper label
  obtain ⟨hwithin, hwithin', hlargest⟩ := contains_meet hbound hb h
  obtain ⟨-, -, hstatic⟩ := meet_meet hbound hb h
  refine ⟨fun l hl => ?_, (w.bound label).meet b, ?_, ?_, hwithin, hwithin', hlargest⟩
  · rw [get?_put, if_neg hl]
  · rw [get?_put, if_pos rfl]
  · rw [hstatic, isStatic_bound]

/-- What a label narrows to, it learns at once. -/
theorem preview_meet (hw : w.All IsProper) (hb : b.IsProper) {old new : Interval}
    (h : w.preview label b = .changed old new) : w.preview label new = .changed old new := by
  obtain ⟨rfl, rfl, hdisjoint, hsame⟩ := preview_changed h
  obtain ⟨hdisjoint', hmeet, -⟩ := meet_meet (hw.bound closed_isProper label) hb hdisjoint
  unfold preview
  dsimp only
  rw [if_neg hdisjoint', hmeet, hsame]
  rfl

/-- Where an assertion has nothing to do, its bound holds, unless the label is static. -/
theorem Settled.satisfies (h : w.Settled label b []) (hw : w.All IsProper) (hb : b.IsProper)
    (hs : w.isStatic label = false) : w.satisfies label b = true := by
  cases h with
  | static hstatic =>
    rw [hs] at hstatic
    cases hstatic
  | nothingNew hjudge hcontains =>
    obtain ⟨a, ha⟩ := Option.isSome_iff_exists.1 hcontains
    have hpreview : w.preview label b = .unchanged := by
      unfold judge at hjudge
      split at hjudge
      · next heq => exact heq
      · cases hjudge
      · cases hjudge
    exact satisfies_iff.2 ⟨a, ha, bound_of_get? ha ▸ contains_of_unchanged hw hb hpreview⟩
  | narrows hjudge hidle _ =>
    obtain ⟨old, hpreview, -⟩ := judge_narrows hjudge
    exact absurd (preview_meet hw hb hpreview) (hidle _ _)

/-- Without opposite labels, only the bound itself can clash. -/
theorem judge_ne_clashes (h : ¬ (w.bound label).Disjoint b) {clashing : Label}
    {existing incoming : Interval} : w.judge label b [] ≠ .clashes clashing existing incoming := by
  unfold judge preview
  dsimp only
  rw [if_neg h]
  by_cases hs : ((w.bound label).meet b).same (w.bound label) = true
  · rw [if_pos hs]
    rintro ⟨⟩
  · rw [if_neg hs]
    rintro ⟨⟩

end World

/-! ## Assertions -/

/-- The assertion narrows its label to a truth value and does not make it static. -/
structure Assertion.Narrows (a : Assertion) : Prop where
  replaces : a.replaces = false
  isStatic : a.isStatic = false
  bound : a.bound.IsProper

/-- An assertion that does not make its label static freezes nothing. -/
theorem Assertion.freeze_of_not_static {a : Assertion} (h : a.isStatic = false) (w : World) :
    a.freeze w = w := by
  unfold freeze
  rw [h, if_neg Bool.false_ne_true]

namespace Interpretation

open AnnotatedLogic.Interval

variable {config : Config} {pairing : Pairing} {i f : Interpretation} {a : Assertion} {w : World}

/-- What has a degree in common with the bound of an assertion is no conflict for it, if the label has
no opposite one. -/
theorem conflict?_eq_none (hp : pairing.partners a.label = [])
    (h : ¬ (w.bound a.label).Disjoint a.bound) : a.conflict? pairing w = none := by
  refine Option.eq_none_iff_forall_ne_some.2 fun c hc => ?_
  obtain ⟨-, -, clashing, existing, incoming, hjudge, -⟩ := Assertion.conflict?_eq_some.1 hc
  rw [hp] at hjudge
  exact World.judge_ne_clashes h hjudge

/-- An assertion that runs into no conflict is passed over because its atom is static, or its label
learns the bound. If that is no change, then the label was there, unless the bound says nothing. -/
theorem assertOn_narrows_cases (i : Interpretation) (config : Config) (ha : a.Narrows)
    (hp : pairing.partners a.label = []) (hw : w.All IsProper) (hc : a.conflict? pairing w = none) :
    (w.isStatic a.label = true ∧ i.assertOn config pairing a w = ⟨i, .nothing, []⟩) ∨
      ∃ v changes, w.Learns a.label a.bound v ∧
        i.assertOn config pairing a w = i.commit config a v changes "" none ∧
        (changes = [] → a.bound.isUnknown = false → v = w) := by
  have hfreeze := Assertion.freeze_of_not_static ha.isStatic
  cases hs : w.isStatic a.label with
  | true => exact .inl ⟨rfl, assertOn_static hs⟩
  | false =>
    right
    cases hpreview : w.preview a.label a.bound with
    | contradiction existing incoming =>
      unfold Assertion.conflict? World.judge at hc
      simp [hs, ha.replaces, hpreview] at hc
    | unchanged =>
      have hjudge : w.judge a.label a.bound (pairing.partners a.label) = .nothingNew := by
        unfold World.judge
        rw [hpreview]
      refine ⟨w.addLabel a.label, [], World.learns_addLabel hw ha.bound hpreview, ?_, fun _ hb => ?_⟩
      · rw [assertOn_nothingNew hs ha.replaces hjudge, hfreeze, commit_nil]
      · refine World.addLabel_of_contains (World.contains_iff.2 fun hnone => ?_)
        have hwithin := World.contains_of_unchanged hw ha.bound hpreview
        rw [World.bound_of_get?_eq_none hnone] at hwithin
        rw [isUnknown_of_contains ha.bound hwithin] at hb
        cases hb
    | changed old new =>
      have hjudge : w.judge a.label a.bound (pairing.partners a.label) = .narrows new := by
        unfold World.judge
        rw [hpreview, hp]
        rfl
      have hagain := World.preview_meet hw ha.bound hpreview
      obtain ⟨-, hnew, hdisjoint, -⟩ := World.preview_changed hpreview
      refine ⟨w.put a.label new, [⟨a.label, old, new, a.source.cause, true⟩],
        hnew ▸ World.learns_put hw ha.bound hdisjoint, ?_, by rintro ⟨⟩⟩
      rw [assertOn_narrows hs ha.replaces hjudge, hp]
      unfold World.learnAll World.learnFor World.learn
      rw [hagain]
      dsimp only [World.changeEach]
      rw [hfreeze]
      rfl

/-- An assertion that runs into no conflict leads up. -/
theorem below_assertOn (ha : a.Narrows) (hp : pairing.partners a.label = []) (hi : i.All IsProper)
    (hw : i.world? a.component = some w) (hc : a.conflict? pairing w = none) :
    i.Below (i.assertOn config pairing a w).interpretation := by
  rcases assertOn_narrows_cases i config ha hp (hi _ w hw) hc with
    ⟨-, hsame⟩ | ⟨v, changes, hlearns, hafter, -⟩
  · rw [hsame]
    exact below_refl hi
  · obtain ⟨hgraph, hworld⟩ := i.commit_view config a v changes "" none
    rw [hafter]
    refine ⟨hgraph, fun c => ?_⟩
    rw [hworld]
    split
    · next hcomponent =>
      rw [hcomponent, hw]
      exact .some (hlearns.below (hi _ w hw))
    · exact (below_refl hi).worlds c

/-- An assertion does not lead past an interpretation in which it holds. -/
theorem assertOn_below (config : Config) (ha : a.Narrows) (hp : pairing.partners a.label = [])
    (hi : i.All IsProper) (hf : f.All IsProper) (hbelow : i.Below f) {u : World}
    (hw : i.world? a.component = some w) (hu : f.world? a.component = some u)
    (hs : u.satisfies a.label a.bound = true) :
    a.conflict? pairing w = none ∧ (i.assertOn config pairing a w).interpretation.Below f := by
  obtain ⟨u', hu', hwu⟩ := hbelow.world? hw
  obtain rfl : u' = u := Option.some.inj (hu'.symm.trans hu)
  obtain ⟨k, hk, hbk⟩ := World.satisfies_iff.1 hs
  have hproper : k.IsProper := hf _ u' hu a.label k hk
  have hc := conflict?_eq_none hp
    (not_disjoint_of_contains (hwu.contains_bound hk hproper) hbk hproper.2.2)
  refine ⟨hc, ?_⟩
  rcases assertOn_narrows_cases i config ha hp (hi _ w hw) hc with
    ⟨-, hsame⟩ | ⟨v, changes, hlearns, hafter, -⟩
  · rw [hsame]
    exact hbelow
  · obtain ⟨hgraph, hworld⟩ := i.commit_view config a v changes "" none
    rw [hafter]
    refine ⟨hbelow.graph.trans hgraph.symm, fun c => ?_⟩
    rw [hworld]
    split
    · next hcomponent =>
      rw [hcomponent, hu]
      exact .some (hlearns.below_of_satisfies hwu (hf _ u' hu) hs)
    · exact hbelow.worlds c

/-- An assertion of what says something changes nothing, or it goes through and reports a change. -/
theorem assertOn_silent (config : Config) (ha : a.Narrows) (hb : a.bound.isUnknown = false)
    (hp : pairing.partners a.label = []) (hi : i.All IsProper) (hw : i.world? a.component = some w) :
    (i.assertOn config pairing a w).interpretation = i ∨
      ((i.assertOn config pairing a w).outcome.refusal? = none ∧
        (i.assertOn config pairing a w).outcome.changedAtoms ≠ 0) := by
  cases hc : a.conflict? pairing w with
  | some conflict =>
    obtain ⟨hs, -, clashing, existing, incoming, hjudge, -⟩ := Assertion.conflict?_eq_some.1 hc
    exact (assertOn_clashes hs ha.replaces ha.bound.2.2 hjudge).imp_left And.right
  | none =>
    rcases assertOn_narrows_cases i config ha hp (hi _ w hw) hc with
      ⟨-, hsame⟩ | ⟨v, changes, -, hafter, hkept⟩
    · rw [hsame]
      exact .inl rfl
    · rw [hafter]
      cases changes with
      | nil =>
        obtain rfl := hkept rfl hb
        rw [commit_nil, putWorld_self hw]
        exact .inl rfl
      | cons change changes => exact .inr ⟨rfl, by rintro ⟨⟩⟩

end Interpretation

/-! ## Effects -/

namespace Work

open AnnotatedLogic.Interval

variable {config : Config} {pairing : Pairing} {w : Work} {a : Assertion} {f : Interpretation}

theorem below_perform (ha : a.Narrows) (hp : pairing.partners a.label = [])
    (hw : w.interpretation.All IsProper)
    (hc : w.interpretation.conflict? pairing (.assert a) = none) :
    w.interpretation.Below (w.perform config pairing (.assert a)).1.interpretation := by
  rcases w.perform_cases config pairing (.assert a) with
    ⟨edge, j, heq, -⟩ | ⟨b, v, heq, hv, hi, -⟩ | ⟨hi, -⟩
  · cases heq
  · cases heq
    rw [hi]
    refine Interpretation.below_assertOn ha hp hw hv ?_
    rwa [Interpretation.conflict?, hv, Option.bind_some] at hc
  · rw [hi]
    exact Interpretation.below_refl hw

theorem perform_below (ha : a.Narrows) (hp : pairing.partners a.label = [])
    (hw : w.interpretation.All IsProper) (hf : f.All IsProper) (hbelow : w.interpretation.Below f)
    (hs : f.satisfies a.component a.label a.bound = true) :
    w.interpretation.conflict? pairing (.assert a) = none ∧
      (w.perform config pairing (.assert a)).1.interpretation.Below f := by
  unfold Interpretation.satisfies at hs
  split at hs
  · next u hu =>
    obtain ⟨v, hv, -⟩ := hbelow.world?_before hu
    obtain ⟨hc, hafter⟩ := Interpretation.assertOn_below config ha hp hw hf hbelow hv hu hs
    refine ⟨by rw [Interpretation.conflict?, hv, Option.bind_some, hc], ?_⟩
    rcases w.perform_cases config pairing (.assert a) with
      ⟨edge, j, heq, -⟩ | ⟨b, v', heq, hv', hi, -⟩ | ⟨hi, -⟩
    · cases heq
    · cases heq
      obtain rfl : v' = v := Option.some.inj (hv'.symm.trans hv)
      rw [hi]
      exact hafter
    · rw [hi]
      exact hbelow
  · cases hs

/-- An assertion of what says something changes nothing if it reports no change. -/
theorem perform_silent (ha : a.Narrows) (hb : a.bound.isUnknown = false)
    (hp : pairing.partners a.label = []) (hw : w.interpretation.All IsProper)
    (h : (w.perform config pairing (.assert a)).1.progress.changedAtoms = w.progress.changedAtoms) :
    (w.perform config pairing (.assert a)).1.interpretation = w.interpretation := by
  obtain ⟨i, trace, progress⟩ := w
  unfold perform Interpretation.assert at h ⊢
  dsimp only at hw h ⊢
  cases hv : i.world? a.component with
  | none =>
    cases a.missing <;> rfl
  | some v =>
    rw [hv] at h
    dsimp only at h ⊢
    rcases Interpretation.assertOn_silent config ha hb hp hw hv with
      hsame | ⟨hgoes, hchanged⟩
    · cases (i.assertOn config pairing a v).outcome.refusal? <;> exact hsame
    · rw [hgoes] at h
      have hsum : progress.changedAtoms + (i.assertOn config pairing a v).outcome.changedAtoms
          = progress.changedAtoms := h
      omega

end Work

end AnnotatedLogic
