import AnnotatedLogic.Proofs.Narrowing
import AnnotatedLogic.Proofs.Static
/-!
# Assertions that are accepted

Assertions that narrow and run into no conflict may make atoms static and narrow each other's labels, as
opposite ones. Whatever they do, they only tighten the interpretation, and what one of them has asked for
stays granted: asserted again, it changes nothing.

* `World.Tightens`, `Interpretation.Tightens`: labels stay, bounds lie within those before, and static
  labels stay static.
* `Assertion.Granted`: the label is static, or it lies within the bound and was not asked to be static. This
  is kept (`Assertion.Granted.tightens`), and such an assertion rests (`Assertion.Granted.rests`).
* `Interpretation.assertOn_accepted`: an assertion without conflict tightens its world and is granted.
* `Interpretation.accept?`: a sequence of assertions without error and conflict.
* `Interpretation.accept?_tightens`: sequences tighten, and everything in them is granted at the end.
* `Interpretation.accepted_again`: atoms only narrow, and every assertion does nothing when it is repeated.
-/

namespace AnnotatedLogic

open AnnotatedLogic.Interval

/-! ## Worlds -/

/-- The other world has all labels of this one, with bounds that lie within theirs. What is static here is
static there. -/
structure World.Tightens (w v : World) : Prop where
  atoms {label a} : w.get? label = some a → ∃ b, v.get? label = some b ∧ a.Contains b
  static {label} : w.isStatic label = true → v.isStatic label = true

namespace World

variable {w v u : World} {label l : Label} {b : Interval}

theorem tightens_refl (hw : w.All IsProper) : w.Tightens w :=
  ⟨fun {_ a} ha => ⟨a, ha, contains_refl (hw _ a ha).isNumeric⟩, id⟩

theorem Tightens.trans (hwv : w.Tightens v) (hvu : v.Tightens u) : w.Tightens u := by
  refine ⟨fun ha => ?_, fun hs => hvu.static (hwv.static hs)⟩
  obtain ⟨b, hb, hab⟩ := hwv.atoms ha
  obtain ⟨c, hc, hbc⟩ := hvu.atoms hb
  exact ⟨c, hc, hab.trans hbc⟩

theorem Tightens.satisfies (h : w.Tightens v) (hs : w.satisfies label b = true) :
    v.satisfies label b = true := by
  obtain ⟨a, ha, hb⟩ := satisfies_iff.1 hs
  obtain ⟨a', ha', hwithin⟩ := h.atoms ha
  exact satisfies_iff.2 ⟨a', ha', hb.trans hwithin⟩

/-- A label gets bounds that lie within those it has, and stays static if it is. -/
theorem tightens_of_get? (hw : w.All IsProper) {new : Interval} (hnew : (w.bound label).Contains new)
    (hs : w.isStatic label = true → new.isStatic = true)
    (hv : ∀ l, v.get? l = if l = label then some new else w.get? l) : w.Tightens v := by
  refine ⟨fun {l a} ha => ?_, fun {l} hl => ?_⟩
  · by_cases heq : l = label
    · subst heq
      exact ⟨new, by rw [hv, if_pos rfl], bound_of_get? ha ▸ hnew⟩
    · exact ⟨a, by rw [hv, if_neg heq, ha], contains_refl (hw l a ha).isNumeric⟩
  · by_cases heq : l = label
    · subst heq
      rw [isStatic_of_get? (by rw [hv, if_pos rfl])]
      exact hs hl
    · rw [isStatic_congr (w := w) (by rw [hv, if_neg heq])]
      exact hl

theorem tightens_addLabel (hw : w.All IsProper) (label : Label) : w.Tightens (w.addLabel label) :=
  tightens_of_get? hw (contains_refl (hw.bound closed_isProper label).isNumeric)
    (fun hs => (w.isStatic_bound label).trans hs) (w.get?_addLabel label)

/-- A label that learns a bound tightens; a bound that clashes is not written. -/
theorem tightens_learnFor (hw : w.All IsProper) (hb : b.IsProper) (cause : Cause) (label : Label) :
    w.Tightens (w.learnFor cause b label).1 := by
  unfold learnFor learn
  cases hpreview : w.preview label b with
  | unchanged => exact tightens_refl hw
  | contradiction existing incoming => exact tightens_refl hw
  | changed old new =>
    obtain ⟨-, rfl, hdisjoint, -⟩ := preview_changed hpreview
    have hbound := hw.bound closed_isProper label
    refine tightens_of_get? hw (contains_meet hbound hb hdisjoint).1 (fun hs => ?_) fun l => get?_put ..
    rw [(meet_meet hbound hb hdisjoint).2.2, isStatic_bound, hs]

theorem tightens_learnOpposite (hw : w.All IsProper) (hb : b.IsProper) (label : Label) :
    w.Tightens (w.learnOpposite b label).1 := by
  unfold learnOpposite
  split
  · exact tightens_refl hw
  · have hadded : (w.addLabel label).All IsProper :=
      (Edits.refl.addLabel label).all closed_isProper hw
    exact (tightens_addLabel hw label).trans (tightens_learnFor hadded hb .pairing label)

theorem tightens_learnOpposites (hw : w.All IsProper) (hb : b.IsProper) (labels : List Label) :
    w.Tightens (changeEach (learnOpposite b) w labels).1 := by
  induction labels generalizing w with
  | nil => exact tightens_refl hw
  | cons label labels ih =>
    have hedits : Edits IsProper w (w.learnOpposite b label).2 (w.learnOpposite b label).1 :=
      edits_learnOpposite hb w label
    exact (tightens_learnOpposite hw hb label).trans (ih (hedits.all closed_isProper hw))

theorem tightens_freeze (hw : w.All IsProper) (a : Assertion) : w.Tightens (a.freeze w) := by
  have hfreezes := w.freezes_freeze a
  refine ⟨fun {l k} hk => ?_, hfreezes.isStatic⟩
  have hwithin := contains_refl (hw l k hk).isNumeric
  rcases hfreezes l with hl | hl <;> rw [hl, hk]
  · exact ⟨k, rfl, hwithin⟩
  · exact ⟨_, rfl, hwithin⟩

/-- A label that narrows comes to lie within the bound, and whatever the opposite labels learn then, it stays
there. -/
theorem learnAll_accepted (hw : w.All IsProper) (hb : b.IsProper) {narrowed : Interval}
    {opposites : List Label} (hjudge : w.judge label b opposites = .narrows narrowed) (cause : Cause) :
    (w.learnAll label narrowed opposites cause).1.All IsProper ∧
      w.Tightens (w.learnAll label narrowed opposites cause).1 ∧
      (w.learnAll label narrowed opposites cause).1.satisfies label b = true := by
  obtain ⟨old, hpreview, -⟩ := judge_narrows hjudge
  have hagain := preview_meet hw hb hpreview
  obtain ⟨-, hnarrowed, hdisjoint, -⟩ := preview_changed hpreview
  have hbound := hw.bound closed_isProper label
  have hproper : narrowed.IsProper := hnarrowed ▸ hbound.meet hb
  have hcomplement := closed_isProper.complement hproper
  have hlearnt : w.learnFor cause narrowed label =
      (w.put label narrowed, [⟨label, old, narrowed, cause, true⟩]) := by
    unfold learnFor learn
    rw [hagain]
  have hfirst : w.Tightens (w.put label narrowed) := by
    have htightens := tightens_learnFor hw hproper cause label
    rwa [hlearnt] at htightens
  have hothers :=
    tightens_learnOpposites (w := w.put label narrowed) (hw.put hproper) hcomplement opposites
  have hsatisfies : (w.put label narrowed).satisfies label b = true := by
    refine satisfies_iff.2 ⟨narrowed, by rw [get?_put, if_pos rfl], ?_⟩
    rw [hnarrowed]
    exact (contains_meet hbound hb hdisjoint).2.1
  have hall := (edits_learnAll hproper hcomplement w label opposites cause).all closed_isProper hw
  unfold learnAll at hall ⊢
  rw [hlearnt] at hall ⊢
  exact ⟨hall, hfirst.trans hothers, hothers.satisfies hsatisfies⟩

/-- A label learns nothing from a bound within which it lies. -/
theorem preview_of_contains (hw : w.All IsProper) (hb : b.IsProper) (h : b.Contains (w.bound label)) :
    w.preview label b = .unchanged := by
  have hbound := hw.bound closed_isProper label
  have hself := contains_refl hbound.isNumeric
  have hdisjoint := not_disjoint_of_contains hself h hbound.2.2
  obtain ⟨hwithin, -, hlargest⟩ := contains_meet hbound hb hdisjoint
  unfold preview
  dsimp only
  rw [if_neg hdisjoint, if_pos (same_of_contains (hlargest hself h) hwithin)]

end World

/-! ## Assertions -/

/-- The assertion narrows its label to a truth value. It may make the label static. -/
structure Assertion.Informs (a : Assertion) : Prop where
  replaces : a.replaces = false
  bound : a.bound.IsProper

/-- What the assertion asks for holds: the label is static, or it lies within the bound and need not be
static. -/
def Assertion.Granted (a : Assertion) (w : World) : Prop :=
  w.isStatic a.label = true ∨ a.isStatic = false ∧ w.satisfies a.label a.bound = true

namespace Assertion

variable {a : Assertion} {pairing : Pairing} {w v : World}

theorem Granted.tightens (h : a.Granted w) (hv : w.Tightens v) : a.Granted v :=
  h.imp hv.static (And.imp_right hv.satisfies)

/-- Where it is granted, an assertion has nothing left to do. -/
theorem Granted.rests (h : a.Granted w) (hw : w.All IsProper) (hb : a.bound.IsProper) :
    a.Rests pairing w := by
  rcases h with hs | ⟨hstatic, hsatisfies⟩
  · exact ⟨.static hs, fun _ _ => hs⟩
  · obtain ⟨k, hk, hwithin⟩ := World.satisfies_iff.1 hsatisfies
    have hpreview : w.preview a.label a.bound = .unchanged :=
      World.preview_of_contains hw hb (by rwa [World.bound_of_get? hk])
    refine ⟨.nothingNew ?_ (World.contains_iff.2 (by rw [hk]; simp)), fun h _ => ?_⟩
    · unfold World.judge
      rw [hpreview]
    · rw [hstatic] at h
      cases h

/-- A label that lies within the bound grants the assertion, once it is frozen if it is to be static. -/
theorem granted_freeze (h : w.satisfies a.label a.bound = true) : a.Granted (a.freeze w) := by
  obtain ⟨k, hk, -⟩ := World.satisfies_iff.1 h
  cases hstatic : a.isStatic with
  | true => exact .inl (World.isStatic_freeze_self hstatic (World.contains_iff.2 (by rw [hk]; simp)))
  | false =>
    rw [freeze_of_not_static hstatic]
    exact .inr ⟨hstatic, h⟩

end Assertion

namespace Interpretation

variable {config : Config} {pairing : Pairing} {i j k : Interpretation} {a : Assertion} {w : World}

/-- An assertion that runs into no conflict tightens the world of its component and is granted there. The
other components keep their worlds. -/
theorem assertOn_accepted (config : Config) (hw : w.All IsProper) (hi : i.world? a.component = some w)
    (ha : a.Informs) (hc : a.conflict? pairing w = none) :
    ∃ v, v.All IsProper ∧ w.Tightens v ∧ a.Granted v ∧ ∀ c,
      (i.assertOn config pairing a w).interpretation.world? c =
        if c = a.component then some v else i.world? c := by
  cases hs : w.isStatic a.label with
  | true =>
    rw [assertOn_static hs]
    refine ⟨w, hw, World.tightens_refl hw, .inl hs, fun c => ?_⟩
    split
    · next hcomponent => rw [hcomponent, hi]
    · rfl
  | false =>
    -- What is written before it is frozen tightens the world and lies within the bound.
    have hfrozen {v : World} (hv : v.All IsProper) (htightens : w.Tightens v)
        (hsatisfies : v.satisfies a.label a.bound = true) :
        (a.freeze v).All IsProper ∧ w.Tightens (a.freeze v) ∧ a.Granted (a.freeze v) :=
      ⟨(World.edits_freeze .refl a).all closed_isProper hv,
        htightens.trans (World.tightens_freeze hv a), Assertion.granted_freeze hsatisfies⟩
    cases hjudge : w.judge a.label a.bound (pairing.partners a.label) with
    | nothingNew =>
      have hpreview : w.preview a.label a.bound = .unchanged := by
        unfold World.judge at hjudge
        split at hjudge
        · next h => exact h
        · cases hjudge
        · split at hjudge <;> cases hjudge
      have hadded : (w.addLabel a.label).All IsProper :=
        (World.Edits.refl.addLabel a.label).all closed_isProper hw
      obtain ⟨hall, htightens, hgranted⟩ := hfrozen hadded (World.tightens_addLabel hw a.label)
        (World.satisfies_iff.2 ⟨_, by rw [World.get?_addLabel, if_pos rfl],
          World.contains_of_unchanged hw ha.bound hpreview⟩)
      rw [assertOn_nothingNew hs ha.replaces hjudge]
      exact ⟨_, hall, htightens, hgranted, fun c => world?_putWorld i a.component c _⟩
    | narrows narrowed =>
      obtain ⟨hlearnt, htightens, hsatisfies⟩ :=
        World.learnAll_accepted hw ha.bound hjudge a.source.cause
      obtain ⟨hall, htightens, hgranted⟩ := hfrozen hlearnt htightens hsatisfies
      rw [assertOn_narrows hs ha.replaces hjudge]
      exact ⟨_, hall, htightens, hgranted, (commit_view i config a _ _ _ _).2⟩
    | clashes clashing existing incoming =>
      have hconflict := Assertion.conflict?_eq_some.2 ⟨hs, ha.replaces, _, _, _, hjudge, rfl⟩
      rw [hc] at hconflict
      cases hconflict

/-! ## Sequences -/

/-- The other interpretation has the worlds of the same components, and they are tightened. -/
def Tightens (i j : Interpretation) : Prop := ∀ c, Option.Rel World.Tightens (i.world? c) (j.world? c)

theorem tightens_refl (hi : i.All IsProper) : i.Tightens i := by
  intro c
  cases hw : i.world? c with
  | none => exact .none
  | some w => exact .some (World.tightens_refl (hi c w hw))

theorem Tightens.trans (hij : i.Tightens j) (hjk : j.Tightens k) : i.Tightens k := by
  intro c
  have hi := hij c
  have hk := hjk c
  generalize i.world? c = w at hi ⊢
  generalize j.world? c = v at hi hk
  generalize k.world? c = u at hk ⊢
  cases hi with
  | none =>
    cases hk
    exact .none
  | some hwv =>
    cases hk with
    | some hvu => exact .some (hwv.trans hvu)

theorem Tightens.world? (h : i.Tightens j) {c : Component} (hw : i.world? c = some w) :
    ∃ v, j.world? c = some v ∧ w.Tightens v := by
  have hc := h c
  rw [hw] at hc
  generalize j.world? c = o at hc ⊢
  cases hc with
  | some hworlds => exact ⟨_, rfl, hworlds⟩

theorem Tightens.world?_eq_none (h : i.Tightens j) {c : Component} (hw : i.world? c = none) :
    j.world? c = none := by
  have hc := h c
  rw [hw] at hc
  generalize j.world? c = o at hc ⊢
  cases hc
  rfl

/-- What the assertion asks for holds of the interpretation: of the world of its component, or there is no
such component and the assertion may be passed over. -/
def Grants (i : Interpretation) (a : Assertion) : Prop :=
  (i.world? a.component = none ∧ a.missing = .ignore) ∨ ∃ w, i.world? a.component = some w ∧ a.Granted w

theorem Grants.tightens (h : i.Grants a) (hij : i.Tightens j) : j.Grants a := by
  rcases h with ⟨hnone, hmissing⟩ | ⟨w, hw, hgranted⟩
  · exact .inl ⟨hij.world?_eq_none hnone, hmissing⟩
  · obtain ⟨v, hv, htightens⟩ := hij.world? hw
    exact .inr ⟨v, hv, hgranted.tightens htightens⟩

/-- Where it is granted, an assertion does nothing. -/
theorem Grants.assert (h : i.Grants a) (hi : i.All IsProper) (ha : a.Informs) (config : Config)
    (pairing : Pairing) : i.assert config pairing a = .ok ⟨i, .nothing, []⟩ := by
  rcases h with ⟨hnone, hmissing⟩ | ⟨w, hw, hgranted⟩
  · unfold Interpretation.assert
    rw [hnone, hmissing]
  · rw [assert_of_world? config pairing hw, assertOn_rests hw ha.replaces (hgranted.rests (hi _ w hw) ha.bound)]

/-- An assertion without error and conflict tightens the interpretation and is granted. -/
theorem assert_accepted (hi : i.All IsProper) (ha : a.Informs) {response : Response}
    (hassert : i.assert config pairing a = .ok response) (hc : response.outcome.conflict = none) :
    response.interpretation.All IsProper ∧ i.Tightens response.interpretation ∧
      response.interpretation.Grants a := by
  rcases assert_cases hassert with ⟨w, hw, rfl⟩ | ⟨hnone, rfl⟩
  · rw [conflict_assertOn, Option.map_eq_none_iff] at hc
    obtain ⟨v, hv, htightens, hgranted, hworlds⟩ := assertOn_accepted config (hi _ w hw) hw ha hc
    refine ⟨fun c u hu => ?_, fun c => ?_, .inr ⟨v, by rw [hworlds, if_pos rfl], hgranted⟩⟩
    · rw [hworlds] at hu
      split at hu
      · cases hu
        exact hv
      · exact hi c u hu
    · rw [hworlds]
      split
      · next hcomponent =>
        rw [hcomponent, hw]
        exact .some htightens
      · exact tightens_refl hi c
  · refine ⟨hi, tightens_refl hi, .inl ⟨hnone, ?_⟩⟩
    unfold Interpretation.assert at hassert
    rw [hnone] at hassert
    cases hmissing : a.missing with
    | ignore => rfl
    | error =>
      rw [hmissing] at hassert
      cases hassert

/-- Carries out assertions, each with its configuration, one after the other, if none of them runs into an
error or a conflict. -/
def accept? (pairing : Pairing) : Interpretation → List (Config × Assertion) → Option Interpretation
  | i, [] => some i
  | i, (config, a) :: us =>
    match i.assert config pairing a with
    | .ok response =>
      if response.outcome.conflict = none then response.interpretation.accept? pairing us else none
    | .error _ => none

variable {us vs : List (Config × Assertion)}

theorem accept?_cons_eq_some :
    i.accept? pairing ((config, a) :: us) = some j ↔
      ∃ response, i.assert config pairing a = .ok response ∧ response.outcome.conflict = none ∧
        response.interpretation.accept? pairing us = some j := by
  rw [accept?]
  cases i.assert config pairing a with
  | ok response => by_cases hc : response.outcome.conflict = none <;> simp [hc]
  | error error => simp

/-- Sequences of assertions only tighten, and in the end everything in them is granted. -/
theorem accept?_tightens (hi : i.All IsProper) (hu : ∀ u ∈ us, u.2.Informs)
    (h : i.accept? pairing us = some j) :
    j.All IsProper ∧ i.Tightens j ∧ ∀ u ∈ us, j.Grants u.2 := by
  induction us generalizing i with
  | nil =>
    cases h
    exact ⟨hi, tightens_refl hi, by simp⟩
  | cons u us ih =>
    obtain ⟨ha, hrest⟩ := List.forall_mem_cons.1 hu
    obtain ⟨response, hassert, hconflict, h⟩ := accept?_cons_eq_some.1 h
    obtain ⟨hproper, hfirst, hgrants⟩ := assert_accepted hi ha hassert hconflict
    obtain ⟨hproper', htightens, hall⟩ := ih hproper hrest h
    exact ⟨hproper', hfirst.trans htightens,
      List.forall_mem_cons.2 ⟨hgrants.tightens htightens, hall⟩⟩

/-- Knowledge only narrows. Along assertions that run into no error and no conflict, whatever labels are
paired, every atom stays, with bounds within those that it had at any time before. And each of the
assertions has nothing left to do in the end: made again, it changes nothing, neither atoms nor what is
static, logged or traced. -/
theorem accepted_again (hi : i.All IsProper) (hu : ∀ u ∈ us ++ vs, u.2.Informs)
    (hij : i.accept? pairing us = some j) (hjk : j.accept? pairing vs = some k) :
    (∀ c l a, j.bound? c l = some a → ∃ b, k.bound? c l = some b ∧ a.Contains b) ∧
      ∀ u ∈ us ++ vs, ∀ config, k.assert config pairing u.2 = .ok ⟨k, .nothing, []⟩ := by
  obtain ⟨hus, hvs⟩ := List.forall_mem_append.1 hu
  obtain ⟨hj, -, hfirst⟩ := accept?_tightens hi hus hij
  obtain ⟨hk, htightens, hsecond⟩ := accept?_tightens hj hvs hjk
  refine ⟨fun c l a ha => ?_, fun u hmem config => ?_⟩
  · obtain ⟨w, hw, ha⟩ := Option.bind_eq_some_iff.1 ha
    obtain ⟨v, hv, hworlds⟩ := htightens.world? hw
    obtain ⟨b, hb, hwithin⟩ := hworlds.atoms ha
    exact ⟨b, (bound?_of_world? hv l).trans hb, hwithin⟩
  · have hgrants : k.Grants u.2 := by
      rcases List.mem_append.1 hmem with hmem | hmem
      · exact (hfirst u hmem).tightens htightens
      · exact hsecond u hmem
    exact hgrants.assert hk (hu u hmem) config pairing

/-- A label that is paired with itself and with another one, and that narrows, becomes static and is
asserted of a component that does not exist. -/
theorem accepted_again_self_paired :
    let p : Label := ⟨"p"⟩
    let q : Label := ⟨"q"⟩
    let i := ofGraph (Graph.empty.addNode ⟨"A"⟩) {}
    let pairing : Pairing := ⟨[(p, p), (p, q)]⟩
    let a (c : String) (label : Label) (lower upper : Degree) (isStatic : Bool) : Config × Assertion :=
      (.standard, ⟨.node ⟨c⟩, label, .fresh lower upper, 0, 0, .fact, "f", isStatic, false, .ignore, []⟩)
    ∃ j k, i.accept? pairing [a "A" p 0.5 0.75 false] = some j ∧
      j.accept? pairing [a "B" p 0 0 false, a "A" q 0.5 0.5 true] = some k ∧
      (∃ v, k.bound? (.node ⟨"A"⟩) p = some v ∧ (Interval.mk 0.5 0.5 0 1 false).Contains v) ∧
      k.assert .standard pairing (a "A" p 0.5 0.75 false).2 = .ok ⟨k, .nothing, []⟩ := by
  intro p q i pairing a
  let us := [a "A" p 0.5 0.75 false]
  let vs := [a "B" p 0 0 false, a "A" q 0.5 0.5 true]
  have hruns : ∃ j k, i.accept? pairing us = some j ∧ j.accept? pairing vs = some k ∧
      j.bound? (.node ⟨"A"⟩) p = some ⟨0.5, 0.5, 0, 1, false⟩ :=
    ⟨(i.accept? pairing us).get (by decide +kernel),
      (((i.accept? pairing us).get (by decide +kernel)).accept? pairing vs).get (by decide +kernel),
      (Option.some_get _).symm, (Option.some_get _).symm, by decide +kernel⟩
  obtain ⟨j, k, hij, hjk, hv⟩ := hruns
  have hu : ∀ u ∈ us ++ vs, u.2.Informs := by
    refine List.forall_mem_append.2 ⟨List.forall_mem_singleton.2 ⟨rfl, ?_⟩,
      List.forall_mem_cons.2 ⟨⟨rfl, ?_⟩, List.forall_mem_singleton.2 ⟨rfl, ?_⟩⟩⟩ <;> decide +kernel
  obtain ⟨hwithin, hagain⟩ := accepted_again (all_ofGraph closed_isProper _ _) hu hij hjk
  exact ⟨j, k, hij, hjk, hwithin _ _ _ hv, hagain (a "A" p 0.5 0.75 false) (by simp [us]) .standard⟩

end Interpretation

end AnnotatedLogic
