import AnnotatedLogic.Proofs.Attempts
import AnnotatedLogic.Proofs.Rest
import AnnotatedLogic.Proofs.Sound
/-!
# Atoms that stay static

A static atom stays as it is until a conflict is resolved on it: the resolve policy makes the label of
the assertion and all opposite labels unknown, static or not. Nothing else lets go of a static atom.

* `Interpretation.Frozen`: an atom is there and static.
* `World.get?_learnAll`, `World.get?_forceAll`, `World.get?_forgetAll`: a static label takes no part in
  what is asserted of others, unless they are forgotten together.
* `Attempt.Unfreezes`: the attempt resolves a conflict on an atom or on an opposite one.
* `Interpretation.assertOn_cases`: what an assertion makes of the world of its component.
* `Work.perform_frozen`, `Work.perform_frozen_self`: an atom stays static, and a static fact makes its
  atom static, unless the attempt resolves such a conflict.
* `keptUnless_frozen`, `frozen_of_fact`: the same of a timestep.
-/

namespace AnnotatedLogic

/-- What a resolved conflict makes of a value: nothing is known any more, and resets no longer pass it
by. The previous bounds stay. -/
def Interval.thawed (i : Interval) : Interval :=
  { i with lower := 0, upper := 1, isStatic := false }

namespace World

variable {w : World} {l : Label}

/-! ## Static labels in a world -/

theorem isStatic_congr {v : World} (h : v.get? l = w.get? l) : v.isStatic l = w.isStatic l := by
  unfold isStatic
  rw [h]

/-- A static label that each step leaves alone is left alone. -/
theorem get?_changeEach {f : World → Label → World × List Change} {labels : List Label}
    (hf : ∀ v : World, v.isStatic l = true → ∀ o ∈ labels, (f v o).1.get? l = v.get? l)
    (hw : w.isStatic l = true) : (changeEach f w labels).1.get? l = w.get? l := by
  induction labels generalizing w with
  | nil => rfl
  | cons o labels ih =>
    have hfirst := hf w hw o (by simp)
    have hrest := ih (w := (f w o).1) (fun v hv o ho => hf v hv o (by simp [ho]))
      ((isStatic_congr hfirst).trans hw)
    exact hrest.trans hfirst

theorem get?_learnFor {label : Label} (h : l ≠ label) (cause : Cause) (b : Interval) (v : World) :
    (v.learnFor cause b label).1.get? l = v.get? l := by
  unfold learnFor learn
  cases v.preview label b with
  | unchanged => rfl
  | contradiction existing incoming => rfl
  | changed old new =>
    dsimp only
    rw [get?_put, if_neg h]

/-- What other labels learn does not concern a static one. -/
theorem get?_learnAll (hw : w.isStatic l = true) {label : Label} (h : l ≠ label) (b : Interval)
    (opposites : List Label) (cause : Cause) :
    (w.learnAll label b opposites cause).1.get? l = w.get? l := by
  have hfirst := get?_learnFor h cause b w
  refine (get?_changeEach (fun v hv o _ => ?_) ((isStatic_congr hfirst).trans hw)).trans hfirst
  unfold learnOpposite
  split
  · rfl
  · next hs =>
    have hne : l ≠ o := fun heq => hs (heq ▸ hv)
    rw [get?_learnFor hne, get?_addLabel, if_neg hne]

theorem get?_forceFor {label : Label} (h : l ≠ label) (cause : Cause) (b : Interval) (v : World) :
    (v.forceFor cause b label).1.get? l = v.get? l := by
  unfold forceFor
  dsimp only
  rw [get?_overwrite, if_neg h]

/-- What is written onto other labels does not concern a static one. -/
theorem get?_forceAll (hw : w.isStatic l = true) {label : Label} (h : l ≠ label) (b : Interval)
    (opposites : List Label) (cause : Cause) :
    (w.forceAll label b opposites cause).1.get? l = w.get? l := by
  have hfirst := get?_forceFor h cause b w
  refine (get?_changeEach (fun v hv o _ => ?_) ((isStatic_congr hfirst).trans hw)).trans hfirst
  unfold forceOpposite
  split
  · rfl
  · next hs =>
    have hne : l ≠ o := by
      rintro rfl
      exact hs ⟨h, hv⟩
    exact get?_forceFor hne .pairing b.complement v

/-- The labels that are forgotten are let go of, and the others keep their values. -/
theorem get?_changeEach_forget (cause : Cause) (labels : List Label) :
    (changeEach (forget cause) w labels).1.get? l =
      if l ∈ labels then some (w.bound l).thawed else w.get? l := by
  induction labels generalizing w with
  | nil => rfl
  | cons o labels ih =>
    have hfirst : (w.forget cause o).1.get? l =
        if l = o then some (w.bound l).thawed else w.get? l := by
      unfold forget
      dsimp only
      rw [get?_setStatic, get?_overwrite, if_pos rfl, get?_overwrite]
      split
      · next h => rw [h]; rfl
      · rfl
    have hbound : ((w.forget cause o).1.bound l).thawed = (w.bound l).thawed := by
      unfold bound at hfirst ⊢
      rw [hfirst]
      split <;> rfl
    show (changeEach (forget cause) (w.forget cause o).1 labels).1.get? l = _
    rw [ih, hbound, hfirst]
    by_cases hmem : l ∈ labels <;> by_cases hl : l = o <;> simp [hmem, hl]

/-- A label and its opposites are let go of, and the other labels keep their values. -/
theorem get?_forgetAll (label : Label) (opposites : List Label) (cause : Cause) :
    (w.forgetAll label opposites cause).1.get? l =
      if l ∈ label :: opposites then some (w.bound l).thawed else w.get? l :=
  get?_changeEach_forget cause (label :: opposites)

/-- Other labels keep their values when a label becomes static. -/
theorem get?_freeze {a : Assertion} (h : l ≠ a.label) : (a.freeze w).get? l = w.get? l := by
  unfold Assertion.freeze
  split
  · rw [get?_setStatic, if_neg h]
  · rfl

/-! ## Labels that become static -/

theorem isStatic_freeze_self {a : Assertion} (ha : a.isStatic = true)
    (hw : w.contains a.label = true) : (a.freeze w).isStatic a.label = true := by
  obtain ⟨i, hi⟩ := Option.isSome_iff_exists.1 hw
  unfold Assertion.freeze isStatic
  rw [if_pos ha, get?_setStatic, if_pos rfl, hi]
  rfl

theorem Edits.contains {P : Interval → Prop} {v : World} {changes : List Change}
    (h : Edits P w changes v) (hw : w.contains l = true) : v.contains l = true := by
  obtain ⟨i, hi⟩ := Option.isSome_iff_exists.1 hw
  exact Option.isSome_iff_exists.2 (h.exists_get? hi)

/-- A label that an assertion narrows is there afterwards. -/
theorem contains_learnAll {label : Label} {b narrowed : Interval} {opposites : List Label}
    (h : w.judge label b opposites = .narrows narrowed) (cause : Cause) :
    (w.learnAll label narrowed opposites cause).1.contains label = true := by
  have hfirst : (w.learnFor cause narrowed label).1.contains label = true := by
    cases hc : w.contains label with
    | true =>
      have hedits : Edits (fun _ => True) w (w.learnFor cause narrowed label).2
          (w.learnFor cause narrowed label).1 := edits_learnFor trivial cause w label
      exact hedits.contains hc
    | false =>
      have hnone : w.get? label = none := Option.not_isSome_iff_eq_none.1 (by simpa [contains] using hc)
      have hbound := bound_of_get?_eq_none hnone
      obtain ⟨old, hpreview, -⟩ := judge_narrows h
      obtain ⟨-, hnarrowed, -, hnew⟩ := preview_changed hpreview
      rw [hbound] at hnarrowed hnew
      obtain ⟨hdisjoint, hmeet⟩ := Interval.unknown_meet hnew
      rw [← hnarrowed] at hdisjoint hmeet hnew
      have hagain : w.preview label narrowed = .changed .unknown narrowed := by
        unfold preview
        dsimp only
        rw [hbound, if_neg hdisjoint, hmeet, hnew]
        rfl
      unfold learnFor learn
      rw [hagain]
      exact contains_iff.2 (by rw [get?_put, if_pos rfl]; simp)
  have hedits : Edits (fun _ => True) (w.learnFor cause narrowed label).1
      (changeEach (learnOpposite narrowed.complement) (w.learnFor cause narrowed label).1 opposites).2
      (changeEach (learnOpposite narrowed.complement) (w.learnFor cause narrowed label).1 opposites).1 :=
    edits_changeEach (edits_learnOpposite trivial) _ opposites
  exact hedits.contains hfirst

/-- A label that is written is there afterwards. -/
theorem contains_forceAll (w : World) (label : Label) (b : Interval) (opposites : List Label)
    (cause : Cause) : (w.forceAll label b opposites cause).1.contains label = true := by
  have hfirst : (w.forceFor cause b label).1.contains label = true :=
    contains_iff.2 (by unfold forceFor; dsimp only; rw [get?_overwrite, if_pos rfl]; simp)
  have hedits : Edits (fun _ => True) (w.forceFor cause b label).1
      (changeEach (forceOpposite label b.complement) (w.forceFor cause b label).1 opposites).2
      (changeEach (forceOpposite label b.complement) (w.forceFor cause b label).1 opposites).1 :=
    edits_changeEach (edits_forceOpposite trivial label) _ opposites
  exact hedits.contains hfirst

end World

/-! ## Assertions -/

/-- The atom is there and static. -/
def Interpretation.Frozen (i : Interpretation) (c : Component) (label : Label) : Prop :=
  ∃ w, i.world? c = some w ∧ w.isStatic label = true

/-- The attempt resolves a conflict on the atom, or on an atom of an opposite label. -/
def Attempt.Unfreezes (config : Config) (pairing : Pairing) (c : Component) (label : Label)
    (a : Attempt) : Prop :=
  config.policy = .resolve ∧
    ∃ conflict, a.conflict? pairing = some conflict ∧ conflict.component = c ∧
      label ∈ conflict.label :: pairing.partners conflict.label

namespace Interpretation

variable {config : Config} {pairing : Pairing} {i : Interpretation} {c : Component} {l : Label}

/-- Changes that are logged leave the component with its new world. -/
theorem world?_commit (a : Assertion) (w : World) (changes : List Change) (message : String)
    (conflict : Option Conflict) :
    (i.commit config a w changes message conflict).interpretation.world? a.component = some w := by
  rw [(i.commit_view config a w changes message conflict).2, if_pos rfl]

/-- What an assertion makes of the world of its component, before its own label becomes static, unless
it is passed over or resolves a conflict. -/
inductive Written (pairing : Pairing) (a : Assertion) (w : World) : World → Prop where
  | added : Written pairing a w (w.addLabel a.label)
  | learnt {narrowed : Interval} :
      w.judge a.label a.bound (pairing.partners a.label) = .narrows narrowed →
      Written pairing a w
        (w.learnAll a.label narrowed (pairing.partners a.label) a.source.cause).1
  | forced :
      Written pairing a w
        (w.forceAll a.label a.bound (pairing.partners a.label) a.source.cause).1

/-- A static label that is not the label of the assertion keeps its value. -/
theorem Written.get?_of_static {a : Assertion} {w v : World} (h : Written pairing a w v)
    (hw : w.isStatic l = true) (hne : l ≠ a.label) : v.get? l = w.get? l := by
  cases h with
  | added => rw [World.get?_addLabel, if_neg hne]
  | learnt => exact World.get?_learnAll hw hne ..
  | forced => exact World.get?_forceAll hw hne ..

/-- The label of the assertion is there afterwards. -/
theorem Written.contains {a : Assertion} {w v : World} (h : Written pairing a w v) :
    v.contains a.label = true := by
  cases h with
  | added => exact World.contains_iff.2 (by rw [World.get?_addLabel, if_pos rfl]; simp)
  | learnt hjudge => exact World.contains_learnAll hjudge _
  | forced => exact World.contains_forceAll ..

variable (config pairing) in
/-- An assertion is passed over because its atom is static, is refused, writes its label, or resolves
a conflict. -/
theorem assertOn_cases (i : Interpretation) (a : Assertion) (w : World) :
    (w.isStatic a.label = true ∧ (i.assertOn config pairing a w).interpretation = i) ∨
      ((i.assertOn config pairing a w).outcome.refusal? ≠ none ∧
        (i.assertOn config pairing a w).interpretation = i) ∨
      (w.isStatic a.label = false ∧ ∃ v, Written pairing a w v ∧
        (i.assertOn config pairing a w).interpretation.world? a.component = some (a.freeze v)) ∨
      (config.policy = .resolve ∧ (∃ conflict, a.conflict? pairing w = some conflict) ∧
        (i.assertOn config pairing a w).interpretation.world? a.component =
          some (w.forgetAll a.label (pairing.partners a.label) a.source.cause).1) := by
  cases hs : w.isStatic a.label with
  | true =>
    rw [assertOn_static hs]
    exact .inl ⟨rfl, rfl⟩
  | false =>
    cases hreplaces : a.replaces with
    | true =>
      refine .inr (.inr (.inl ⟨rfl, _, .forced, ?_⟩))
      unfold assertOn
      simp only [hs, hreplaces]
      exact world?_commit ..
    | false =>
      cases hjudge : w.judge a.label a.bound (pairing.partners a.label) with
      | nothingNew =>
        rw [assertOn_nothingNew hs hreplaces hjudge]
        refine .inr (.inr (.inl ⟨rfl, _, .added, ?_⟩))
        rw [world?_putWorld, if_pos rfl]
      | narrows narrowed =>
        rw [assertOn_narrows hs hreplaces hjudge]
        exact .inr (.inr (.inl ⟨rfl, _, .learnt hjudge, world?_commit ..⟩))
      | clashes clashing existing incoming =>
        unfold assertOn Assertion.conflict?
        simp only [hs, hreplaces, hjudge, true_and]
        cases config.policy with
        | abort => exact .inr (.inl ⟨by rintro ⟨⟩, rfl⟩)
        | override => exact .inr (.inr (.inl ⟨_, .forced, world?_commit ..⟩))
        | resolve => exact .inr (.inr (.inr ⟨rfl, ⟨_, rfl⟩, world?_commit ..⟩))

/-- A static label is not asserted anything of, so this does not clash either. -/
theorem ne_label_of_conflict? {a : Assertion} {w : World} {conflict : Conflict}
    (h : a.conflict? pairing w = some conflict) (hw : w.isStatic l = true) : l ≠ a.label := by
  rintro rfl
  obtain ⟨hs, -⟩ := Assertion.conflict?_eq_some.1 h
  rw [hs] at hw
  cases hw

/-- Where a conflict is resolved, the label of the assertion and its opposites are forgotten. -/
theorem world?_assertOn_of_conflict? (hpolicy : config.policy = .resolve) {a : Assertion} {w : World}
    {conflict : Conflict} (h : a.conflict? pairing w = some conflict) :
    (i.assertOn config pairing a w).interpretation.world? a.component =
      some (w.forgetAll a.label (pairing.partners a.label) a.source.cause).1 := by
  obtain ⟨hs, hreplaces, clashing, existing, incoming, hjudge, -⟩ := Assertion.conflict?_eq_some.1 h
  unfold assertOn
  simp only [hs, hreplaces, hjudge, hpolicy]
  exact world?_commit ..

variable (config pairing) in
/-- A static label of the component keeps its value, unless a conflict is resolved on it. -/
theorem get?_assertOn_of_static {a : Assertion} {w : World} (hi : i.world? a.component = some w)
    (hw : w.isStatic l = true) :
    (∃ u, (i.assertOn config pairing a w).interpretation.world? a.component = some u ∧
        u.get? l = w.get? l) ∨
      config.policy = .resolve ∧ (∃ conflict, a.conflict? pairing w = some conflict) ∧
        l ∈ a.label :: pairing.partners a.label := by
  rcases assertOn_cases config pairing i a w with
    ⟨-, hsame⟩ | ⟨-, hsame⟩ | ⟨hs, v, hwritten, hafter⟩ | ⟨hpolicy, hconflict, hafter⟩
  · exact .inl ⟨w, by rw [hsame, hi], rfl⟩
  · exact .inl ⟨w, by rw [hsame, hi], rfl⟩
  · have hne : l ≠ a.label := by
      rintro rfl
      rw [hs] at hw
      cases hw
    exact .inl ⟨_, hafter, (World.get?_freeze hne).trans (hwritten.get?_of_static hw hne)⟩
  · by_cases hmem : l ∈ a.label :: pairing.partners a.label
    · exact .inr ⟨hpolicy, hconflict, hmem⟩
    · exact .inl ⟨_, hafter, by rw [World.get?_forgetAll, if_neg hmem]⟩

/-- A static assertion that is not refused makes its atom static, unless its own conflict is
resolved. -/
theorem frozen_assertOn_self {a : Assertion} {w : World} (hi : i.world? a.component = some w)
    (ha : a.isStatic = true) (hrefusal : (i.assertOn config pairing a w).outcome.refusal? = none) :
    (i.assertOn config pairing a w).interpretation.Frozen a.component a.label ∨
      config.policy = .resolve ∧ ∃ conflict, a.conflict? pairing w = some conflict := by
  rcases assertOn_cases config pairing i a w with
    ⟨hs, hsame⟩ | ⟨hrefused, -⟩ | ⟨-, v, hwritten, hafter⟩ | ⟨hpolicy, hconflict, -⟩
  · exact .inl ⟨w, by rw [hsame, hi], hs⟩
  · exact absurd hrefusal hrefused
  · exact .inl ⟨_, hafter, World.isStatic_freeze_self ha hwritten.contains⟩
  · exact .inr ⟨hpolicy, hconflict⟩

/-- An assertion concerns the world of its component and no other. -/
theorem world?_assertOn {a : Assertion} {w : World} (hi : i.world? a.component = some w)
    (hc : c ≠ a.component) : (i.assertOn config pairing a w).interpretation.world? c = i.world? c := by
  obtain ⟨v, changes, message, -, hafter, -, -⟩ := assertOn_edits (P := fun _ => True)
    Interval.closed_true config pairing hi (fun _ _ _ => trivial) trivial
  rw [hafter, foldl_log]
  show (i.putWorld a.component v).world? c = i.world? c
  rw [world?_putWorld, if_neg hc]

/-- An edge that is added does not concern the components that are there. -/
theorem Frozen.addEdge {j : Interpretation} {e : Edge} (h : i.Frozen c l) (hfits : i.Fits)
    (hadd : i.addEdge e = .ok j) : j.Frozen c l := by
  obtain ⟨w, hw, hs⟩ := h
  rcases addEdge_cases hadd with ⟨-, rfl⟩ | ⟨he, g, -, -, rfl⟩
  · exact ⟨w, hw, hs⟩
  · have hne : c ≠ .edge e := by
      rintro rfl
      rw [hfits.world?_new he] at hw
      cases hw
    refine ⟨w, ?_, hs⟩
    rw [world?_putWorld, if_neg hne]
    exact hw

theorem Frozen.reset (h : i.Frozen c l) : i.reset.Frozen c l := by
  obtain ⟨w, hw, hs⟩ := h
  refine ⟨w.reset, ?_, ?_⟩
  · rw [world?_reset, hw]
    rfl
  · unfold World.isStatic at hs ⊢
    rw [World.get?_reset]
    cases hl : w.get? l with
    | none =>
      rw [hl] at hs
      cases hs
    | some v =>
      rw [hl] at hs
      simp [Interval.reset, show v.isStatic = true from hs]

end Interpretation

/-! ## Effects -/

section Effects

variable {config : Config} {pairing : Pairing} {c : Component} {l : Label}

variable (config pairing) in
/-- An atom stays static unless the attempt resolves a conflict on it. -/
theorem Work.perform_frozen {w : Work} (hfits : w.interpretation.Fits)
    (h : w.interpretation.Frozen c l) (e : Effect) :
    (w.perform config pairing e).1.interpretation.Frozen c l ∨
      Attempt.Unfreezes config pairing c l ⟨w, e⟩ := by
  rcases w.perform_cases config pairing e with
    ⟨edge, j, -, hadd, hi, -⟩ | ⟨a, v, rfl, hv, hi, -⟩ | ⟨hi, -⟩
  · rw [hi]
    exact .inl (h.addEdge hfits hadd)
  · rw [hi]
    obtain ⟨u, hu, hs⟩ := h
    by_cases hc : c = a.component
    · subst hc
      obtain rfl : v = u := Option.some.inj (hv.symm.trans hu)
      rcases Interpretation.get?_assertOn_of_static config pairing hv hs with
        ⟨after, hafter, hsame⟩ | ⟨hpolicy, ⟨conflict, hconflict⟩, hmem⟩
      · exact .inl ⟨after, hafter, (World.isStatic_congr hsame).trans hs⟩
      · obtain ⟨hcomponent, hlabel⟩ := Assertion.component_conflict? hconflict
        refine .inr ⟨hpolicy, conflict, ?_, hcomponent, ?_⟩
        · exact Option.bind_eq_some_iff.2 ⟨v, hv, hconflict⟩
        · rw [hlabel]
          exact hmem
    · exact .inl ⟨u, (Interpretation.world?_assertOn hv hc).trans hu, hs⟩
  · rw [hi]
    exact .inl h

/-- A static assertion about a component that is there makes its atom static, unless it resolves a
conflict. -/
theorem Work.perform_frozen_self {a : Assertion} (ha : a.isStatic = true) {w : Work} {v : World}
    (hv : w.interpretation.world? a.component = some v)
    (hgoes : (w.perform config pairing (.assert a)).2 = none) :
    (w.perform config pairing (.assert a)).1.interpretation.Frozen a.component a.label ∨
      Attempt.Unfreezes config pairing a.component a.label ⟨w, .assert a⟩ := by
  obtain ⟨i, trace, progress⟩ := w
  have hassert : i.assert config pairing a = .ok (i.assertOn config pairing a v) := by
    unfold Interpretation.assert
    rw [show i.world? a.component = some v from hv]
  unfold perform at hgoes ⊢
  simp only [hassert] at hgoes ⊢
  cases hrefusal : (i.assertOn config pairing a v).outcome.refusal? with
  | some conflict =>
    rw [hrefusal] at hgoes
    cases hgoes
  | none =>
    rcases Interpretation.frozen_assertOn_self hv ha hrefusal with
      hfrozen | ⟨hpolicy, conflict, hconflict⟩
    · exact .inl hfrozen
    · obtain ⟨hcomponent, hlabel⟩ := Assertion.component_conflict? hconflict
      refine .inr ⟨hpolicy, conflict, Option.bind_eq_some_iff.2 ⟨v, hv, hconflict⟩, hcomponent, ?_⟩
      rw [hlabel]
      exact List.mem_cons_self ..

end Effects

/-! ## Timesteps -/

namespace Reasoner

variable {r : Reasoner} {t : Nat} {g : Graph} {c : Component} {l : Label}

/-- The atom is static in work over a graph. -/
def FrozenOver (g : Graph) (c : Component) (l : Label) (w : Work) : Prop :=
  w.Over g ∧ w.interpretation.Frozen c l

/-- Some attempt resolves a conflict on the atom. -/
def Unfreezes (r : Reasoner) (c : Component) (l : Label) (attempts : List Attempt) : Prop :=
  ∃ a ∈ attempts, a.Unfreezes r.config r.pairing c l

/-- Effects keep an atom static unless they resolve a conflict on it. -/
theorem keptUnless_frozen (r : Reasoner) (g : Graph) (c : Component) (l : Label) :
    r.KeptUnless (Attempt.Unfreezes r.config r.pairing c l) (FrozenOver g c l) where
  progress hw _ := ⟨⟨hw.1.fits, hw.1.grows⟩, hw.2⟩
  perform hw e :=
    (Work.perform_frozen r.config r.pairing hw.1.fits hw.2 e).imp_left fun h => ⟨hw.1.perform e, h⟩

theorem mem_factEffects {f : Fact} (hf : f ∈ r.facts) (hactive : f.isActive t = true) :
    f.effect r.config t ∈ r.factEffects t := by
  refine List.mem_map_of_mem (List.mem_filter.2 ⟨?_, hactive⟩)
  rw [List.mem_append, List.mem_filter, List.mem_filter]
  cases hattribute : f.fromAttribute
  · exact .inr ⟨hf, rfl⟩
  · exact .inl ⟨hf, rfl⟩

/-- A static fact of a timestep has made its atom static when the timestep is completed, if its
component was there when the timestep began and no conflict was resolved on the atom. -/
theorem frozen_of_fact (h : r.Sound) {f : Fact} (hf : f ∈ r.facts) (hactive : f.isActive t = true)
    (hstatic : f.isStatic = true) (htarget : f.target ∈ r.interpretation.graph.components)
    {s : Reasoner} {progress : Progress} (hstep : r.timestep t = (s, .ok progress)) :
    s.interpretation.Frozen f.target f.label ∨ r.Unfreezes f.target f.label (r.attempts t) := by
  have hkept := r.keptUnless_frozen r.interpretation.graph f.target f.label
  have hpassage := r.timestep_passage t
  rw [hstep] at hpassage
  cases hpassage with
  | @completed u v w hfacts hdue hloop =>
    have hafterFacts : FrozenOver r.interpretation.graph f.target f.label u ∨
        r.Unfreezes f.target f.label
          ((r.startWork t).attempts r.config r.pairing (r.factEffects t)) := by
      refine foldUntil_establish (P := Work.Over r.interpretation.graph)
        (Q := FrozenOver r.interpretation.graph f.target f.label) (mem_factEffects hf hactive)
        (fun u e hu => hu.perform e) (fun u hu hgoes => ?_)
        (fun u e hu => (hkept.perform hu e).imp_right fun h => ⟨_, List.mem_singleton_self _, h⟩)
        (h.startWork t) hfacts
      · obtain ⟨world, hworld⟩ := hu.fits.mem.2 (hu.grows.mem_components htarget)
        rcases Work.perform_frozen_self (show _ = true from hstatic) hworld hgoes with
          hfrozen | hunfreezes
        · exact .inl ⟨hu.perform _, hfrozen⟩
        · exact .inr ⟨_, List.mem_singleton_self _, hunfreezes⟩
    have hattempts : r.attempts t =
        (r.startWork t).attempts r.config r.pairing (r.factEffects t) ++ r.attemptsAfterFacts t u := by
      unfold attempts
      rw [hfacts]
    rw [hattempts]
    rcases hafterFacts with hu | ⟨a, ha, hunfreezes⟩
    · rcases hkept.afterFacts hfacts hu with ⟨v, hv, hi⟩ | ⟨a, ha, hunfreezes⟩
      · rw [hstep] at hi
        exact .inl (hi ▸ hv.2)
      · exact .inr ⟨a, List.mem_append_right _ ha, hunfreezes⟩
    · exact .inr ⟨a, List.mem_append_left _ ha, hunfreezes⟩

end Reasoner

end AnnotatedLogic
