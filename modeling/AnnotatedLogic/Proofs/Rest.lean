import AnnotatedLogic.Proofs.Freezing
/-!
# Assertions at rest

An assertion rests in a world if it has nothing left to do there: carried out, it changes nothing,
not even what no outcome reports.

* `World.Idle`, `World.Ignores`, `World.Settled`: what makes an assertion do nothing. That values
  become static does not change this (`World.Freezes.settled`).
* `Assertion.Rests`, `assertOn_rests`: an assertion at rest does nothing.
* `assertOn_static`, `assertOn_nothingNew`, `assertOn_narrows`, `assertOn_clashes`: the cases of an
  assertion that narrows. A clash is refused, or it changes something.
* `assertOn_quiet`: an assertion that reports no change and adds no label rests
  afterwards.
-/

namespace AnnotatedLogic

namespace World

/-! ## Worlds that have nothing to learn -/

/-- The label would not change by learning the bound. -/
def Idle (w : World) (label : Label) (b : Interval) : Prop :=
  ∀ old new, w.preview label b ≠ .changed old new

/-- The label takes no notice of the bound as the complement of another one: it is static, or it is
there and would not change. -/
def Ignores (w : World) (label : Label) (b : Interval) : Prop :=
  w.isStatic label = true ∨ w.contains label = true ∧ w.Idle label b

theorem learnFor_of_idle {w : World} {label : Label} {b : Interval} (h : w.Idle label b)
    (cause : Cause) : w.learnFor cause b label = (w, []) := by
  unfold learnFor learn
  cases hp : w.preview label b with
  | unchanged => rfl
  | contradiction existing incoming => rfl
  | changed old new => exact absurd hp (h old new)

theorem idle_of_learnFor {w : World} {label : Label} {b : Interval} {cause : Cause}
    (h : (w.learnFor cause b label).2 = []) : w.Idle label b := by
  intro old new hp
  unfold learnFor learn at h
  rw [hp] at h
  cases h

theorem contains_iff {w : World} {label : Label} :
    w.contains label = true ↔ w.get? label ≠ none :=
  Option.isSome_iff_ne_none

theorem addLabel_of_contains {w : World} {label : Label} (h : w.contains label = true) :
    w.addLabel label = w := by
  unfold addLabel
  rw [if_pos h]

theorem learnOpposite_of_ignores {w : World} {label : Label} {b : Interval}
    (h : w.Ignores label b) : w.learnOpposite b label = (w, []) := by
  unfold learnOpposite
  rcases h with hs | ⟨hc, hidle⟩
  · rw [if_pos hs]
  · split
    · rfl
    · rw [addLabel_of_contains hc, learnFor_of_idle hidle]

/-- An opposite label that does not change and is not new takes no notice. -/
theorem ignores_of_learnOpposite {w : World} {label : Label} {b : Interval}
    (hchanges : (w.learnOpposite b label).2 = [])
    (hlabel : w.get? label = none → (w.learnOpposite b label).1.get? label = none) :
    w.Ignores label b := by
  unfold learnOpposite at hchanges hlabel
  split at hchanges
  · next hs => exact .inl hs
  · next hs =>
    rw [if_neg hs] at hlabel
    have hidle := idle_of_learnFor hchanges
    rw [learnFor_of_idle hidle] at hlabel
    have hcontains : w.contains label = true := contains_iff.2 fun hnone => by
      have hadded := hlabel hnone
      rw [get?_addLabel, if_pos rfl] at hadded
      cases hadded
    rw [addLabel_of_contains hcontains] at hidle
    exact .inr ⟨hcontains, hidle⟩

/-- Opposite labels of which none changes and none is new take no notice. -/
theorem ignores_of_learnOpposites {w : World} {b : Interval} {opposites : List Label}
    (hchanges : (changeEach (learnOpposite b) w opposites).2 = [])
    (hlabels : ∀ label, w.get? label = none →
      (changeEach (learnOpposite b) w opposites).1.get? label = none) :
    ∀ label ∈ opposites, w.Ignores label b := by
  induction opposites with
  | nil => simp
  | cons first others ih =>
    have hboth : (w.learnOpposite b first).2
        ++ (changeEach (learnOpposite b) (w.learnOpposite b first).1 others).2 = [] := hchanges
    obtain ⟨hfirst, hothers⟩ := List.append_eq_nil_iff.1 hboth
    have hafter (label : Label) (hnone : w.get? label = none) :
        (changeEach (learnOpposite b) (w.learnOpposite b first).1 others).1.get? label = none :=
      hlabels label hnone
    have hedits : Edits (fun _ => True) (w.learnOpposite b first).1
        (changeEach (learnOpposite b) (w.learnOpposite b first).1 others).2
        (changeEach (learnOpposite b) (w.learnOpposite b first).1 others).1 :=
      edits_changeEach (edits_learnOpposite trivial) _ others
    have hignores : w.Ignores first b :=
      ignores_of_learnOpposite hfirst fun hnone => hedits.get?_eq_none (hafter first hnone)
    rw [learnOpposite_of_ignores hignores] at hothers hafter
    intro label hl
    rcases List.mem_cons.1 hl with rfl | hl
    · exact hignores
    · exact ih hothers hafter label hl

theorem changeEach_of_idle {f : World → Label → World × List Change} {w : World}
    {labels : List Label} (h : ∀ label ∈ labels, f w label = (w, [])) :
    changeEach f w labels = (w, []) := by
  induction labels with
  | nil => rfl
  | cons first others ih =>
    rw [changeEach, h first (by simp)]
    dsimp only
    rw [ih fun label hl => h label (by simp [hl])]
    rfl

/-- What a label and its opposites learn without a change and without a new label leaves the world
as it is. -/
theorem learnAll_eq {w : World} {label : Label} {b : Interval} {opposites : List Label}
    (hidle : w.Idle label b) (hopposites : ∀ l ∈ opposites, w.Ignores l b.complement)
    (cause : Cause) : w.learnAll label b opposites cause = (w, []) := by
  unfold learnAll
  rw [learnFor_of_idle hidle]
  dsimp only
  rw [changeEach_of_idle fun l hl => learnOpposite_of_ignores (hopposites l hl)]
  rfl

theorem ignores_of_learnAll {w : World} {label : Label} {b : Interval} {opposites : List Label}
    {cause : Cause} (hchanges : (w.learnAll label b opposites cause).2 = [])
    (hlabels : ∀ l, w.get? l = none → (w.learnAll label b opposites cause).1.get? l = none) :
    w.Idle label b ∧ ∀ l ∈ opposites, w.Ignores l b.complement := by
  have hboth : (w.learnFor cause b label).2 ++ (changeEach (learnOpposite b.complement)
      (w.learnFor cause b label).1 opposites).2 = [] := hchanges
  obtain ⟨hfirst, hothers⟩ := List.append_eq_nil_iff.1 hboth
  have hidle := idle_of_learnFor hfirst
  have hafter (l : Label) (hnone : w.get? l = none) : (changeEach (learnOpposite b.complement)
      (w.learnFor cause b label).1 opposites).1.get? l = none := hlabels l hnone
  rw [learnFor_of_idle hidle] at hothers hafter
  exact ⟨hidle, ignores_of_learnOpposites hothers hafter⟩

/-- A label learns nothing from the bounds that it has. -/
theorem preview_of_same {w : World} {label : Label} {b : Interval}
    (h : (w.bound label).same b = true) (hb : b.Ordered) : w.preview label b = .unchanged := by
  unfold preview
  dsimp only
  rw [if_neg (Interval.not_disjoint_of_same h hb), if_pos (Interval.same_meet_of_same h hb)]

/-- To write a bound that clashes is a change. -/
theorem forceAll_of_clashes {w : World} {label clashing : Label} {b existing incoming : Interval}
    {opposites : List Label} (hb : b.Ordered)
    (h : w.judge label b opposites = .clashes clashing existing incoming) (cause : Cause) :
    (w.forceAll label b opposites cause).2 ≠ [] := by
  intro hchanges
  have hboth : (w.forceFor cause b label).2 ++ (changeEach (forceOpposite label b.complement)
      (w.forceFor cause b label).1 opposites).2 = [] := hchanges
  obtain ⟨hfirst, -⟩ := List.append_eq_nil_iff.1 hboth
  have hsame : (w.bound label).same b = true := by
    by_contra hnot
    unfold forceFor at hfirst
    dsimp only at hfirst
    rw [bound_overwrite, if_neg (show ¬ (w.bound label).same
      ((w.bound label).withBounds b.lower b.upper) = true from hnot)] at hfirst
    cases hfirst
  unfold judge at h
  rw [preview_of_same hsame hb] at h
  cases h

/-- What an assertion finds in a world in which it has nothing to do. -/
inductive Settled (w : World) (label : Label) (b : Interval) (opposites : List Label) : Prop where
  | static (h : w.isStatic label = true)
  | nothingNew (hjudge : w.judge label b opposites = .nothingNew)
      (hcontains : w.contains label = true)
  /-- Taken in once more, the interval that the label would narrow to changes nothing. -/
  | narrows {narrowed : Interval} (hjudge : w.judge label b opposites = .narrows narrowed)
      (hidle : w.Idle label narrowed)
      (hopposites : ∀ l ∈ opposites, w.Ignores l narrowed.complement)

/-! ## Worlds that freeze -/

namespace Freezes

variable {w u : World}

theorem preview (h : w.Freezes u) {label : Label} (hs : u.isStatic label = false) (b : Interval) :
    u.preview label b = w.preview label b := by
  unfold World.preview World.bound
  rw [h.get?_eq hs]

theorem firstOpposed? (h : w.Freezes u) (b : Interval) (labels : List Label) :
    u.firstOpposed? b labels = w.firstOpposed? b labels := by
  unfold World.firstOpposed?
  simp only [h.disjoint_bound]

/-- What an assertion would do stays the same, if there is no clash. -/
theorem judge (h : w.Freezes u) {label : Label} (hs : u.isStatic label = false) {b : Interval}
    {opposites : List Label} {verdict : Verdict} (hw : w.judge label b opposites = verdict)
    (hclash : ∀ clashing existing incoming, verdict ≠ .clashes clashing existing incoming) :
    u.judge label b opposites = verdict := by
  unfold World.judge at hw ⊢
  rw [h.preview hs]
  simp only [h.firstOpposed?]
  split at hw
  · exact hw
  · exact absurd hw.symm (hclash _ _ _)
  · split at hw
    · exact absurd hw.symm (hclash _ _ _)
    · exact hw

theorem idle (h : w.Freezes u) {label : Label} (hs : u.isStatic label = false) {b : Interval}
    (hw : w.Idle label b) : u.Idle label b := by
  intro old new
  rw [h.preview hs]
  exact hw old new

theorem ignores (h : w.Freezes u) {label : Label} {b : Interval} (hw : w.Ignores label b) :
    u.Ignores label b := by
  rcases hw with hs | ⟨hc, hidle⟩
  · exact .inl (h.isStatic hs)
  · cases hs : u.isStatic label with
    | true => exact .inl hs
    | false => exact .inr ⟨(h.contains label).trans hc, h.idle hs hidle⟩

theorem settled (h : w.Freezes u) {label : Label} {b : Interval} {opposites : List Label}
    (hw : w.Settled label b opposites) : u.Settled label b opposites := by
  cases hs : u.isStatic label with
  | true => exact .static hs
  | false =>
    cases hw with
    | static hstatic => exact .static (h.isStatic hstatic)
    | nothingNew hjudge hcontains =>
      exact .nothingNew (h.judge hs hjudge (by simp)) ((h.contains label).trans hcontains)
    | narrows hjudge hidle hopposites =>
      exact .narrows (h.judge hs hjudge (by simp)) (h.idle hs hidle)
        fun l hl => h.ignores (hopposites l hl)

end Freezes

end World

/-! ## Assertions at rest -/

/-- An assertion has nothing left to do in a world: it says nothing new, and if it asks for its label
to be static, then the label is. -/
structure Assertion.Rests (a : Assertion) (pairing : Pairing) (w : World) : Prop where
  settled : w.Settled a.label a.bound (pairing.partners a.label)
  frozen : a.isStatic = true → w.contains a.label = true → w.isStatic a.label = true

namespace Assertion

variable {a : Assertion} {pairing : Pairing}

theorem Rests.freezes {w u : World} (h : a.Rests pairing w) (hu : w.Freezes u) :
    a.Rests pairing u := by
  refine ⟨hu.settled h.settled, fun hs hc => ?_⟩
  rw [hu.contains] at hc
  exact hu.isStatic (h.frozen hs hc)

/-- Once it is static where it is to be static, a label that says nothing new rests. -/
theorem rests_freeze {w : World} (h : w.Settled a.label a.bound (pairing.partners a.label)) :
    a.Rests pairing (a.freeze w) := by
  refine ⟨(w.freezes_freeze a).settled h, fun hs hc => ?_⟩
  rw [(w.freezes_freeze a).contains] at hc
  obtain ⟨i, hi⟩ := Option.isSome_iff_exists.1 hc
  unfold freeze World.isStatic
  rw [if_pos hs, World.get?_setStatic, if_pos rfl, hi]
  rfl

theorem Rests.freeze {w : World} (h : a.Rests pairing w) (hs : w.isStatic a.label = false) :
    a.freeze w = w := by
  unfold Assertion.freeze
  split
  · next hstatic =>
    have hnone : w.get? a.label = none := by
      rw [← Option.not_isSome_iff_eq_none]
      intro hc
      have hfrozen := h.frozen hstatic hc
      rw [hs] at hfrozen
      cases hfrozen
    unfold World.setStatic
    rw [hnone]
  · rfl

end Assertion

namespace Interpretation

variable {config : Config} {pairing : Pairing} {i : Interpretation} {a : Assertion} {w : World}

/-! ### The cases of an assertion that narrows -/

theorem assertOn_static (hs : w.isStatic a.label = true) :
    i.assertOn config pairing a w = ⟨i, .nothing, []⟩ := by
  unfold assertOn
  dsimp only
  rw [if_pos hs]

theorem assertOn_nothingNew (hs : w.isStatic a.label = false) (ha : a.replaces = false)
    (hjudge : w.judge a.label a.bound (pairing.partners a.label) = .nothingNew) :
    i.assertOn config pairing a w
      = ⟨i.putWorld a.component (a.freeze (w.addLabel a.label)), .nothing, []⟩ := by
  unfold assertOn
  dsimp only
  rw [hs, if_neg (by simp), if_neg (by simp [ha]), hjudge]

theorem assertOn_narrows (hs : w.isStatic a.label = false) (ha : a.replaces = false)
    {narrowed : Interval}
    (hjudge : w.judge a.label a.bound (pairing.partners a.label) = .narrows narrowed) :
    i.assertOn config pairing a w =
      let learned := w.learnAll a.label narrowed (pairing.partners a.label) a.source.cause
      i.commit config a (a.freeze learned.1) learned.2 "" none := by
  unfold assertOn
  dsimp only
  rw [hs, if_neg (by simp), if_neg (by simp [ha]), hjudge]

/-- A clash is refused and nothing happens, or it changes something. -/
theorem assertOn_clashes (hs : w.isStatic a.label = false) (ha : a.replaces = false)
    (hb : a.bound.Ordered) {clashing : Label} {existing incoming : Interval}
    (hjudge : w.judge a.label a.bound (pairing.partners a.label)
      = .clashes clashing existing incoming) :
    ((i.assertOn config pairing a w).outcome.refusal? ≠ none ∧
        (i.assertOn config pairing a w).interpretation = i) ∨
      ((i.assertOn config pairing a w).outcome.refusal? = none ∧
        (i.assertOn config pairing a w).outcome.changedAtoms ≠ 0) := by
  unfold assertOn
  dsimp only
  rw [hs, if_neg (by simp), if_neg (by simp [ha]), hjudge]
  cases config.policy with
  | abort => exact .inl ⟨by rintro ⟨⟩, rfl⟩
  | override =>
    refine .inr ⟨rfl, fun hchanged => ?_⟩
    exact World.forceAll_of_clashes hb hjudge _ (List.length_eq_zero_iff.1 hchanged)
  | resolve => exact .inr ⟨rfl, by rintro ⟨⟩⟩

/-- A commit of no change gives the component its world. -/
theorem commit_nil (i : Interpretation) (config : Config) (a : Assertion) (w : World) :
    i.commit config a w [] "" none = ⟨i.putWorld a.component w, .nothing, []⟩ := by
  simp [commit, World.movement, Outcome.nothing]

/-! ### What rests -/

/-- An assertion at rest does nothing. -/
theorem assertOn_rests (hi : i.world? a.component = some w) (ha : a.replaces = false)
    (h : a.Rests pairing w) : i.assertOn config pairing a w = ⟨i, .nothing, []⟩ := by
  cases hs : w.isStatic a.label with
  | true => exact assertOn_static hs
  | false =>
    have hfreeze := h.freeze hs
    cases h.settled with
    | static hstatic =>
      rw [hs] at hstatic
      cases hstatic
    | nothingNew hjudge hcontains =>
      rw [assertOn_nothingNew hs ha hjudge, World.addLabel_of_contains hcontains, hfreeze,
        putWorld_self hi]
    | narrows hjudge hidle hopposites =>
      rw [assertOn_narrows hs ha hjudge, World.learnAll_eq hidle hopposites]
      dsimp only
      rw [hfreeze, commit_nil, putWorld_self hi]

/-- An assertion that changes nothing and adds no label rests afterwards, and all that it did is to
make a value static. -/
theorem assertOn_quiet (hi : i.world? a.component = some w) (ha : a.replaces = false)
    (hb : a.bound.Ordered)
    (hchanged : (i.assertOn config pairing a w).outcome.changedAtoms = 0)
    (hrefusal : (i.assertOn config pairing a w).outcome.refusal? = none)
    (hlabels : ∀ label, w.get? label = none →
      (i.assertOn config pairing a w).interpretation.bound? a.component label = none) :
    i.Freezes (i.assertOn config pairing a w).interpretation ∧
      ∃ u, (i.assertOn config pairing a w).interpretation.world? a.component = some u ∧
        a.Rests pairing u := by
  have hafter (v : World) (label : Label) :
      (i.putWorld a.component (a.freeze v)).bound? a.component label = none
        ↔ v.get? label = none := by
    rw [bound?_putWorld, if_pos rfl, (v.freezes_freeze a).get?_eq_none]
  have hfrozen (hsettled : w.Settled a.label a.bound (pairing.partners a.label)) :
      i.Freezes (i.putWorld a.component (a.freeze w)) ∧
        ∃ u, (i.putWorld a.component (a.freeze w)).world? a.component = some u ∧
          a.Rests pairing u := by
    refine ⟨freezes_putWorld hi (w.freezes_freeze a), a.freeze w, ?_, a.rests_freeze hsettled⟩
    rw [world?_putWorld, if_pos rfl]
  cases hs : w.isStatic a.label with
  | true =>
    rw [assertOn_static hs]
    exact ⟨.refl i, w, hi, .static hs, fun _ _ => hs⟩
  | false =>
    cases hjudge : w.judge a.label a.bound (pairing.partners a.label) with
    | nothingNew =>
      rw [assertOn_nothingNew hs ha hjudge] at hlabels ⊢
      have hcontains : w.contains a.label = true := World.contains_iff.2 fun hnone => by
        have hadded := (hafter _ _).1 (hlabels a.label hnone)
        rw [World.get?_addLabel, if_pos rfl] at hadded
        cases hadded
      rw [World.addLabel_of_contains hcontains]
      exact hfrozen (.nothingNew hjudge hcontains)
    | narrows narrowed =>
      rw [assertOn_narrows hs ha hjudge] at hchanged hlabels ⊢
      -- A narrower interval that does not narrow the label leaves its opposites alone as well.
      rcases hlearn : w.learnAll a.label narrowed (pairing.partners a.label) a.source.cause
        with ⟨v, changes⟩
      rw [hlearn] at hchanged hlabels
      obtain rfl : changes = [] := List.length_eq_zero_iff.1 hchanged
      have hkept (label : Label) (hnone : w.get? label = none) :
          (w.learnAll a.label narrowed (pairing.partners a.label) a.source.cause).1.get? label
            = none := by
        rw [hlearn]
        exact (hafter v label).1 (hlabels label hnone)
      obtain ⟨hidle, hopposites⟩ := World.ignores_of_learnAll (congrArg Prod.snd hlearn) hkept
      rw [World.learnAll_eq hidle hopposites] at hlearn
      cases hlearn
      exact hfrozen (.narrows hjudge hidle hopposites)
    | clashes clashing existing incoming =>
      rcases assertOn_clashes hs ha hb hjudge with h | h
      · exact absurd hrefusal h.1
      · exact absurd hchanged h.2

end Interpretation

end AnnotatedLogic
