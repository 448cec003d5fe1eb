import AnnotatedLogic.Proofs.Accepted
import AnnotatedLogic.Proofs.Opposites
import AnnotatedLogic.Proofs.Pairing
import AnnotatedLogic.Proofs.PredicateMap
/-!
# The order of facts

Facts whose labels are not opposite to each other can be asserted in any order: if one order runs into no
conflict, then none does, and all lead to the same bounds. The worlds in between differ from order to order,
so none is compared with another one. Instead, the outcome of one order bounds all others.

* `World.HandedOn`: a label has not narrowed since the start, or its opposite labels lie within its
  complement.
* `World.Takes`: what an assertion without conflict makes of a world. It leads up (`World.Takes.below`).
* `World.Below.conflict?_eq_none`, `World.Takes.below_of`: below a world in which its bound holds and is
  handed on, an assertion runs into no conflict and stays below.
* `Interpretation.Onward`: what holds along assertions without conflict.
* `Interpretation.accept?_perm`: any order of assertions leads to the same outcome.
* `Work.accept?_or_conflict`: effects that assert are carried out just as the sequence of their assertions.
* `Work.fact_order_irrelevant`: any order of facts leads to the same outcome.
-/

namespace AnnotatedLogic

open AnnotatedLogic.Interval

namespace Interval

variable {i j k b : Interval}

/-- The complement of what an interval contains lies within its complement. -/
theorem Contains.complement (h : i.Contains j) (hi : i.IsProper) (hj : j.IsProper) :
    i.complement.Contains j.complement :=
  ⟨Degree.one_sub_le_one_sub hj.2.1 hi.2.1 h.2, Degree.one_sub_le_one_sub hi.1 hj.1 h.1⟩

/-- Larger intervals have a degree in common if smaller ones have. -/
theorem not_disjoint_of_not_disjoint {i' j' : Interval} (hi : i.Contains i') (hj : j.Contains j')
    (hi' : i'.IsProper) (hj' : j'.IsProper) (h : ¬ i'.Disjoint j') : ¬ i.Disjoint j := by
  obtain ⟨hleft, hright, -⟩ := contains_meet hi' hj' h
  exact not_disjoint_of_contains (hi.trans hleft) (hj.trans hright) (hi'.meet hj').2.2

/-- Where intervals only narrow, the last one is the same as the first one if and only if nothing happened
in between. -/
theorem same_iff_of_contains (hij : i.Contains j) (hjk : j.Contains k) :
    k.same i = true ↔ k.same j = true ∧ j.same i = true := by
  constructor
  · intro h
    have hki := contains_of_same h
    exact ⟨same_of_contains (hki.trans hij) hjk, same_of_contains (hjk.trans hki) hij⟩
  · rintro ⟨hkj, hji⟩
    exact same_trans hkj hji

end Interval

namespace World

variable {w₀ w v u : World} {label l : Label} {b : Interval} {opposites : List Label}

/-! ## Worlds that know more -/

theorem Below.bound_contains (h : w.Below u) (hu : u.All IsProper) (l : Label) :
    (w.bound l).Contains (u.bound l) := by
  cases hl : u.get? l with
  | none =>
    have hnone : w.get? l = none := by
      refine Option.eq_none_iff_forall_ne_some.2 fun a ha => ?_
      obtain ⟨k, hk, -⟩ := h.atoms ha
      rw [hl] at hk
      cases hk
    rw [bound_of_get?_eq_none hl, bound_of_get?_eq_none hnone]
    exact contains_refl closed_isProper.unknown.isNumeric
  | some k =>
    rw [bound_of_get? hl]
    exact h.contains_bound hl (hu l k hl)

/-- Worlds below each other hold the same bounds. -/
theorem Below.same_bound (h : w.Below u) (h' : u.Below w) (hw : w.All IsProper) (hu : u.All IsProper)
    (l : Label) : (w.bound l).same (u.bound l) = true :=
  same_of_contains (h.bound_contains hu l) (h'.bound_contains hw l)

/-! ## What an assertion makes of a world -/

/-- What an assertion without conflict makes of the world: it passes a static label by, and otherwise it
tells the label and the opposite ones. -/
inductive Takes (w : World) (label : Label) (b : Interval) (opposites : List Label) : World → Prop where
  | static (hs : w.isStatic label = true) : Takes w label b opposites w
  | told {v : World} (hs : w.isStatic label = false) (hown : ¬ (w.bound label).Disjoint b)
      (hfree : w.Narrows label b → ∀ q ∈ opposites,
        ¬ (w.bound q).Disjoint ((w.bound label).meet b).complement)
      (hv : ∀ l, v.get? l = w.told label b opposites l) : Takes w label b opposites v

/-- A label afterwards is as it was, or it has learnt a bound with which it had a degree in common. -/
theorem Takes.cases (h : w.Takes label b opposites v) (hw : w.All IsProper) (hb : b.IsProper) (l : Label) :
    v.get? l = w.get? l ∨ ∃ c : Interval, c.IsProper ∧ ¬ (w.bound l).Disjoint c ∧
      v.get? l = some ((w.bound l).learning c) := by
  cases h with
  | static => exact .inl rfl
  | told _ hown hfree hv =>
    rw [hv, World.told]
    split
    · next hl =>
      subst hl
      exact .inr ⟨b, hb, hown, rfl⟩
    · split
      · next hlearns =>
        have hmet := (hw.bound closed_isProper label).meet hb
        exact .inr ⟨_, closed_isProper.complement hmet, hfree hlearns.1 l hlearns.2.1, rfl⟩
      · exact .inl rfl

theorem Takes.below (h : w.Takes label b opposites v) (hw : w.All IsProper) (hb : b.IsProper) :
    w.Below v := by
  refine ⟨fun {l a} ha => ?_, fun l => ?_⟩
  · rcases h.cases hw hb l with hsame | ⟨c, hc, hdisjoint, hlearnt⟩
    · exact ⟨a, hsame.trans ha, contains_refl (hw l a ha).isNumeric⟩
    · rw [bound_of_get? ha] at hlearnt hdisjoint
      exact ⟨_, hlearnt, (contains_learning (hw l a ha) hc hdisjoint).1⟩
  · rcases h.cases hw hb l with hsame | ⟨c, hc, hdisjoint, hlearnt⟩
    · exact isStatic_congr hsame
    · rw [isStatic_of_get? hlearnt, isStatic_learning (hw.bound closed_isProper l) hc hdisjoint,
        isStatic_bound]

theorem Takes.all (h : w.Takes label b opposites v) (hw : w.All IsProper) (hb : b.IsProper) :
    v.All IsProper := by
  intro l k hk
  rcases h.cases hw hb l with hsame | ⟨c, hc, -, hlearnt⟩
  · exact hw l k (hsame.symm.trans hk)
  · obtain rfl := Option.some.inj (hlearnt.symm.trans hk)
    exact (hw.bound closed_isProper l).learning hc

/-- A label that is neither the one of the assertion nor opposite to it stays as it is. -/
theorem Takes.get?_eq (h : w.Takes label b opposites v) (hl : l ≠ label) (hl' : l ∉ opposites) :
    v.get? l = w.get? l := by
  cases h with
  | static => rfl
  | told _ _ _ hv =>
    rw [hv, World.told, if_neg hl, if_neg fun hlearns => hl' hlearns.2.1]

theorem Takes.get?_of_static (h : w.Takes label b opposites v) (hl : w.isStatic l = true) :
    v.get? l = w.get? l := by
  cases h with
  | static => rfl
  | told hs _ _ hv =>
    have hne : l ≠ label := by
      rintro rfl
      rw [hs] at hl
      cases hl
    rw [hv, World.told, if_neg hne, if_neg fun hlearns => by simp [hl] at hlearns]

/-! ## Handing on -/

/-- What the label has come to say since the start is handed on: it has not narrowed, or each opposite label
lies within its complement, or is static and does not contradict it. -/
def HandedOn (w₀ w : World) (label : Label) (opposites : List Label) : Prop :=
  (w.bound label).same (w₀.bound label) = true ∨ ∀ q ∈ opposites,
    w.satisfies q (w.bound label).complement = true ∨
      w.isStatic q = true ∧ ¬ (w.bound q).Disjoint (w.bound label).complement

/-- The label of the assertion itself is handed on. -/
theorem Takes.handedOn_self (h : w.Takes label b opposites v) (hw : w.All IsProper) (hb : b.IsProper)
    (hl : label ∉ opposites) (hhanded : w₀.HandedOn w label opposites) :
    w₀.HandedOn v label opposites := by
  cases h with
  | static => exact hhanded
  | told hs hown hfree hv =>
    have hbound := hw.bound closed_isProper
    have hlabel : v.bound label = (w.bound label).learning b := by
      rw [bound_of_told (hv label), if_pos rfl]
    have hother {q : Label} (hq : q ∈ opposites) : q ≠ label := ne_of_mem_of_not_mem hq hl
    by_cases hnarrows : w.Narrows label b
    · rw [learning_eq_meet hnarrows] at hlabel
      have hcomplement := closed_isProper.complement ((hbound label).meet hb)
      refine .inr fun q hq => ?_
      have hget := hv q
      rw [World.told, if_neg (hother hq)] at hget
      rw [hlabel]
      cases hq' : w.isStatic q with
      | false =>
        rw [if_pos ⟨hnarrows, hq, hq'⟩] at hget
        exact .inl (satisfies_iff.2
          ⟨_, hget, (contains_learning (hbound q) hcomplement (hfree hnarrows q hq)).2.1⟩)
      | true =>
        rw [if_neg fun hlearns => by simp [hq'] at hlearns] at hget
        rw [isStatic_congr hget, bound_congr hget]
        exact .inr ⟨hq', hfree hnarrows q hq⟩
    · -- Nothing has changed.
      rw [learning_eq_self (Bool.eq_true_of_not_eq_false hnarrows)] at hlabel
      unfold HandedOn at hhanded ⊢
      rw [hlabel]
      refine hhanded.imp_right fun hall q hq => ?_
      have hget := hv q
      rw [World.told, if_neg (hother hq), if_neg fun hlearns => hnarrows hlearns.1] at hget
      unfold satisfies
      rw [hget, isStatic_congr hget, bound_congr hget]
      exact hall q hq

/-- What has been handed on stays so when another label is asserted to which the label is not opposite. -/
theorem Takes.handedOn_other (h : w.Takes label b opposites v) (hw : w.All IsProper) (hb : b.IsProper)
    (hl : l ≠ label) (hl' : l ∉ opposites) {others : List Label} (hhanded : w₀.HandedOn w l others) :
    w₀.HandedOn v l others := by
  have hbelow := h.below hw hb
  unfold HandedOn at hhanded ⊢
  rw [bound_congr (h.get?_eq hl hl')]
  refine hhanded.imp_right fun hall q hq => ?_
  rcases hall q hq with hsatisfies | ⟨hs, hdisjoint⟩
  · exact .inl (hbelow.satisfies hsatisfies)
  · have hkept := h.get?_of_static hs
    rw [isStatic_congr hkept, bound_congr hkept]
    exact .inr ⟨hs, hdisjoint⟩

theorem handedOn_refl (hw : w.All IsProper) (label : Label) (opposites : List Label) :
    w.HandedOn w label opposites :=
  .inl (same_refl (hw.bound closed_isProper label).isNumeric)

/-- What a label and a bound say together contains what the label is in a higher world that satisfies the
bound. -/
theorem Below.meet_contains (h : w.Below u) (hw : w.All IsProper) (hu : u.All IsProper) (hb : b.IsProper)
    (hs : u.satisfies label b = true) :
    ¬ (w.bound label).Disjoint b ∧ ((w.bound label).meet b).Contains (u.bound label) := by
  have hbu : b.Contains (u.bound label) := by
    obtain ⟨k, hk, hbk⟩ := satisfies_iff.1 hs
    rwa [bound_of_get? hk]
  have hwithin := h.bound_contains hu label
  have hown := not_disjoint_of_contains hwithin hbu (hu.bound closed_isProper label).2.2
  exact ⟨hown, (contains_meet (hw.bound closed_isProper label) hb hown).2.2 hwithin hbu⟩

/-- A label that narrows has narrowed in a higher world that satisfies the bound as well. So this is handed
on there. -/
theorem Below.handedOn (hw₀ : w₀.Below w) (h : w.Below u) (hw : w.All IsProper) (hu : u.All IsProper)
    (hb : b.IsProper) (hs : u.satisfies label b = true) (hhanded : w₀.HandedOn u label opposites)
    (hnarrows : w.Narrows label b) : ∀ q ∈ opposites,
      u.satisfies q (u.bound label).complement = true ∨
        u.isStatic q = true ∧ ¬ (u.bound q).Disjoint (u.bound label).complement := by
  refine hhanded.resolve_left fun hsame => ?_
  obtain ⟨hown, hmet⟩ := h.meet_contains hw hu hb hs
  obtain ⟨hleft, -, -⟩ := contains_meet (hw.bound closed_isProper label) hb hown
  have hback := (contains_of_same hsame).trans (hw₀.bound_contains hw label)
  rw [Narrows, same_of_contains (hmet.trans hback) hleft] at hnarrows
  cases hnarrows

/-- Below a world in which its bound holds and is handed on, an assertion contradicts no opposite label. -/
theorem Below.free (hw₀ : w₀.Below w) (h : w.Below u) (hw : w.All IsProper) (hu : u.All IsProper)
    (hb : b.IsProper) (hs : u.satisfies label b = true) (hhanded : w₀.HandedOn u label opposites)
    (hnarrows : w.Narrows label b) :
    ∀ q ∈ opposites, ¬ (w.bound q).Disjoint ((w.bound label).meet b).complement := by
  intro q hq
  have hbound := hu.bound closed_isProper
  have hmet := (h.meet_contains hw hu hb hs).2
  have hproper := (hw.bound closed_isProper label).meet hb
  refine not_disjoint_of_not_disjoint (h.bound_contains hu q) (hmet.complement hproper (hbound label))
    (hbound q) (closed_isProper.complement (hbound label)) ?_
  rcases hw₀.handedOn h hw hu hb hs hhanded hnarrows q hq with hq | ⟨-, hdisjoint⟩
  · obtain ⟨k, hk, hwithin⟩ := satisfies_iff.1 hq
    rw [bound_of_get? hk]
    exact not_disjoint_of_contains (contains_refl (hu q k hk).isNumeric) hwithin (hu q k hk).2.2
  · exact hdisjoint

/-- Below such a world an assertion runs into no conflict. -/
theorem Below.conflict?_eq_none {pairing : Pairing} {a : Assertion} (hw₀ : w₀.Below w) (h : w.Below u)
    (hw : w.All IsProper) (hu : u.All IsProper) (ha : a.Narrows)
    (hs : w.isStatic a.label = false → u.satisfies a.label a.bound = true)
    (hhanded : w₀.HandedOn u a.label (pairing.partners a.label)) : a.conflict? pairing w = none := by
  cases hstatic : w.isStatic a.label with
  | true =>
    unfold Assertion.conflict?
    rw [hstatic, if_pos rfl]
  | false =>
    exact (Assertion.conflict?_eq_none_iff hstatic ha.replaces).2
      ⟨(h.meet_contains hw hu ha.bound (hs hstatic)).1, hw₀.free h hw hu ha.bound (hs hstatic) hhanded⟩

/-- Below such a world stays what the assertion makes of the world. -/
theorem Takes.below_of (hv : w.Takes label b opposites v) (hw₀ : w₀.Below w) (h : w.Below u)
    (hw : w.All IsProper) (hu : u.All IsProper) (hb : b.IsProper)
    (hs : w.isStatic label = false → u.satisfies label b = true)
    (hhanded : w₀.HandedOn u label opposites) : v.Below u := by
  have hbelow := hv.below hw hb
  refine ⟨fun {l a} ha => ?_, fun l => (h.static l).trans (hbelow.static l).symm⟩
  have hbound := hw.bound closed_isProper
  have hwithin {k : Interval} (hk : u.get? l = some k) : (w.bound l).Contains k :=
    h.contains_bound hk (hu l k hk)
  cases hv with
  | static => exact h.atoms ha
  | told hs' hown hfree hv =>
    have hsatisfies := hs hs'
    rw [hv, World.told] at ha
    split at ha
    · next hl =>
      subst hl
      cases ha
      obtain ⟨k, hk, hbk⟩ := satisfies_iff.1 hsatisfies
      exact ⟨k, hk, (contains_learning (hbound l) hb hown).2.2 (hwithin hk) hbk⟩
    · split at ha
      · next hlearns =>
        cases ha
        obtain ⟨hnarrows, hl, hstatic⟩ := hlearns
        have hmet := (h.meet_contains hw hu hb hsatisfies).2
        have hproper := (hbound label).meet hb
        have hcontains := hmet.complement hproper (hu.bound closed_isProper label)
        rcases hw₀.handedOn h hw hu hb hsatisfies hhanded hnarrows l hl with hopposite | ⟨hstatic', -⟩
        · obtain ⟨k, hk, hck⟩ := satisfies_iff.1 hopposite
          exact ⟨k, hk, (contains_learning (hbound l) (closed_isProper.complement hproper)
            (hfree hnarrows l hl)).2.2 (hwithin hk) (hcontains.trans hck)⟩
        · rw [h.static, hstatic] at hstatic'
          cases hstatic'
      · exact h.atoms ha

end World

/-! ## Interpretations -/

theorem Assertion.Narrows.informs {a : Assertion} (h : a.Narrows) : a.Informs := ⟨h.replaces, h.bound⟩

namespace Interpretation

variable {config : Config} {pairing : Pairing} {i₀ i j f : Interpretation} {a : Assertion} {w : World}
  {as : List Assertion} {us us' : List (Config × Assertion)}

/-- An assertion that runs into no conflict gives its component another world and makes the labels available of
which the bounds have changed. -/
theorem assertOn_takes (config : Config) (hw : w.All IsProper) (hi : i.world? a.component = some w)
    (ha : a.Narrows) (hl : a.label ∉ pairing.partners a.label) (hc : a.conflict? pairing w = none) :
    ∃ v, w.Takes a.label a.bound (pairing.partners a.label) v ∧
      (i.assertOn config pairing a w).interpretation.graph = i.graph ∧
      (∀ c, (i.assertOn config pairing a w).interpretation.world? c =
        if c = a.component then some v else i.world? c) ∧
      ∀ c l, (i.assertOn config pairing a w).interpretation.isAvailable c l = true ↔
        i.isAvailable c l = true ∨ c = a.component ∧ (v.bound l).same (w.bound l) = false := by
  cases hs : w.isStatic a.label with
  | true =>
    have hsame (l : Label) : (w.bound l).same (w.bound l) = true :=
      same_refl (hw.bound closed_isProper l).isNumeric
    rw [assertOn_static hs]
    refine ⟨w, .static hs, rfl, fun c => ?_, fun c l => by simp [hsame]⟩
    split
    · next hcomponent => rw [hcomponent, hi]
    · rfl
  | false =>
    obtain ⟨hown, hfree⟩ := (Assertion.conflict?_eq_none_iff hs ha.replaces).1 hc
    obtain ⟨v, changes, hafter, hview, hlabels⟩ := assertOn_told i config hw ha.bound hs ha.replaces hl hc
    have hfreeze := Assertion.freeze_of_not_static ha.isStatic v
    obtain ⟨hgraph, hworld⟩ := i.commit_view config a v changes "" none
    rw [hafter, hfreeze]
    refine ⟨v, .told hs hown hfree hview, hgraph, hworld, fun c l => ?_⟩
    rw [← hlabels]
    unfold commit isAvailable
    rw [foldl_log, PredicateMap.contains_pushAll]
    simp only [putWorld, List.mem_map, Prod.mk.injEq]
    constructor
    · rintro (hmem | ⟨change, hmem, rfl, rfl⟩)
      · exact .inl hmem
      · exact .inr ⟨rfl, change, hmem, rfl⟩
    · rintro (hmem | ⟨rfl, change, hmem, rfl⟩)
      · exact .inl hmem
      · exact .inr ⟨change, hmem, rfl, rfl⟩

/-- The bounds of an atom are others than at the start. -/
def Moved (i₀ i : Interpretation) (c : Component) (l : Label) : Prop :=
  ∃ w₀ w, i₀.world? c = some w₀ ∧ i.world? c = some w ∧ (w.bound l).same (w₀.bound l) = false

theorem moved_iff {c : Component} {l : Label} {w₀ : World} (hw₀ : i₀.world? c = some w₀)
    (hw : i.world? c = some w) : i₀.Moved i c l ↔ ¬ (w.bound l).same (w₀.bound l) = true := by
  rw [Bool.not_eq_true]
  constructor
  · rintro ⟨v₀, v, hv₀, hv, h⟩
    obtain rfl : w₀ = v₀ := Option.some.inj (hw₀.symm.trans hv₀)
    obtain rfl : w = v := Option.some.inj (hw.symm.trans hv)
    exact h
  · exact fun h => ⟨w₀, w, hw₀, hw, h⟩

/-- Where one world is replaced by a higher one, an atom has moved since the start if it had before, or if it
moves now. -/
theorem Below.moved_iff (h : i₀.Below i) {d : Component} {v : World} (hw : i.world? d = some w)
    (hproper : w.All IsProper) (hbelow : w.Below v) (hproper' : v.All IsProper)
    (hworld : ∀ c, j.world? c = if c = d then some v else i.world? c) (c : Component) (l : Label) :
    i₀.Moved j c l ↔ i₀.Moved i c l ∨ c = d ∧ (v.bound l).same (w.bound l) = false := by
  by_cases hcomponent : c = d
  · subst hcomponent
    obtain ⟨w₀, hw₀, hbelow₀⟩ := h.world?_before hw
    have hsame := same_iff_of_contains (hbelow₀.bound_contains hproper l) (hbelow.bound_contains hproper' l)
    rw [Interpretation.moved_iff hw₀ hw, Interpretation.moved_iff hw₀ ((hworld c).trans (if_pos rfl)), hsame,
      and_comm, not_and_or, Bool.not_eq_true, Bool.not_eq_true, and_iff_right rfl]
  · unfold Moved
    rw [(hworld c).trans (if_neg hcomponent)]
    simp [hcomponent]

/-- What holds along assertions that run into no conflict: they lead up, what they say is handed on to the
opposite labels, and the labels of which the bounds have changed since the start are available. -/
structure Onward (pairing : Pairing) (as : List Assertion) (i₀ i : Interpretation) : Prop where
  proper : i.All IsProper
  below : i₀.Below i
  handed {a w₀ w} : a ∈ as → i₀.world? a.component = some w₀ → i.world? a.component = some w →
    w₀.HandedOn w a.label (pairing.partners a.label)
  available (c l) : i.isAvailable c l = true ↔ i₀.isAvailable c l = true ∨ i₀.Moved i c l

/-- No label of the assertions is opposite to one of them on the same component. -/
def Apart (pairing : Pairing) (as : List Assertion) : Prop :=
  ∀ a ∈ as, ∀ b ∈ as, a.component = b.component → b.label ∉ pairing.partners a.label

theorem onward_refl (hi : i.All IsProper) : Onward pairing as i i where
  proper := hi
  below := below_refl hi
  handed := fun {a w₀ w} _ hw₀ hw => by
    obtain rfl : w₀ = w := Option.some.inj (hw₀.symm.trans hw)
    exact World.handedOn_refl (hi _ w₀ hw) a.label _
  available c l := by
    refine ⟨.inl, fun h => h.resolve_right ?_⟩
    rintro ⟨w₀, w, hw₀, hw, hsame⟩
    obtain rfl : w₀ = w := Option.some.inj (hw₀.symm.trans hw)
    rw [same_refl ((hi c w₀ hw).bound closed_isProper l).isNumeric] at hsame
    cases hsame

/-- One assertion without conflict. -/
theorem Onward.assertOn (h : Onward pairing as i₀ i) (hapart : Apart pairing as) (hmem : a ∈ as)
    (ha : a.Narrows) (config : Config) (hw : i.world? a.component = some w)
    (hc : a.conflict? pairing w = none) :
    Onward pairing as i₀ (i.assertOn config pairing a w).interpretation := by
  have hproper := h.proper _ w hw
  obtain ⟨v, htakes, hgraph, hworld, havailable⟩ :=
    assertOn_takes config hproper hw ha (hapart a hmem a hmem rfl) hc
  have hbelow := htakes.below hproper ha.bound
  refine ⟨fun c u hu => ?_, h.below.trans ⟨hgraph, fun c => ?_⟩, fun {b w₀ u} hb hw₀ hu => ?_,
    fun c l => ?_⟩
  · rw [hworld] at hu
    split at hu
    · cases hu
      exact htakes.all hproper ha.bound
    · exact h.proper c u hu
  · rw [hworld]
    split
    · next hcomponent =>
      rw [hcomponent, hw]
      exact .some hbelow
    · exact (below_refl h.proper).worlds c
  · rw [hworld] at hu
    split at hu
    · next hcomponent =>
      cases hu
      have hhanded := h.handed hb hw₀ (hcomponent ▸ hw)
      have hopposite := hapart a hmem b hb hcomponent.symm
      by_cases hlabel : b.label = a.label
      · rw [hlabel] at hhanded hopposite ⊢
        exact htakes.handedOn_self hproper ha.bound hopposite hhanded
      · exact htakes.handedOn_other hproper ha.bound hlabel hopposite hhanded
    · exact h.handed hb hw₀ hu
  · rw [havailable, h.available, or_assoc,
      h.below.moved_iff hw hproper hbelow (htakes.all hproper ha.bound) hworld c l]

/-- Assertions without conflict. -/
theorem Onward.accept? (h : Onward pairing as i₀ i) (hapart : Apart pairing as)
    (hu : ∀ u ∈ us, u.2 ∈ as ∧ u.2.Narrows) (haccept : i.accept? pairing us = some j) :
    Onward pairing as i₀ j := by
  induction us generalizing i with
  | nil =>
    cases haccept
    exact h
  | cons u us ih =>
    obtain ⟨⟨hmem, ha⟩, hrest⟩ := List.forall_mem_cons.1 hu
    obtain ⟨response, hassert, hconflict, haccept⟩ := accept?_cons_eq_some.1 haccept
    refine ih ?_ hrest haccept
    rcases assert_cases hassert with ⟨w, hw, rfl⟩ | ⟨-, rfl⟩
    · rw [conflict_assertOn, Option.map_eq_none_iff] at hconflict
      exact h.assertOn hapart hmem ha _ hw hconflict
    · exact h

/-- Where a granted assertion finds no component below, it may be passed over. -/
theorem Grants.missing (h : f.Grants a) (hif : i.Below f) (hw : i.world? a.component = none) :
    a.missing = .ignore := by
  rcases h with ⟨-, hmissing⟩ | ⟨u, hu, -⟩
  · exact hmissing
  · obtain ⟨w, hw', -⟩ := hif.world?_before hu
    rw [hw] at hw'
    cases hw'

/-- Where the label of a granted assertion is not static below, it lies within the bound. -/
theorem Grants.satisfies {u : World} (h : f.Grants a) (hu : f.world? a.component = some u) (hwu : w.Below u)
    (hs : w.isStatic a.label = false) : u.satisfies a.label a.bound = true := by
  rcases h with ⟨hnone, -⟩ | ⟨v, hv, hgranted⟩
  · rw [hu] at hnone
    cases hnone
  · obtain rfl : v = u := Option.some.inj (hv.symm.trans hu)
    rcases hgranted with hstatic | ⟨-, hsatisfies⟩
    · rw [hwu.static, hs] at hstatic
      cases hstatic
    · exact hsatisfies

/-- Below an interpretation in which an assertion is granted and handed on, it runs into no conflict and
stays below. -/
theorem Onward.assert_below (h : Onward pairing as i₀ i) (hf : Onward pairing as i₀ f) (hif : i.Below f)
    (hapart : Apart pairing as) (hmem : a ∈ as) (ha : a.Narrows) (hgrants : f.Grants a)
    (config : Config) :
    ∃ response, i.assert config pairing a = .ok response ∧ response.outcome.conflict = none ∧
      Onward pairing as i₀ response.interpretation ∧ response.interpretation.Below f := by
  cases hw : i.world? a.component with
  | none =>
    refine ⟨⟨i, .nothing, []⟩, ?_, rfl, h, hif⟩
    unfold Interpretation.assert
    rw [hw, hgrants.missing hif hw]
  | some w =>
    obtain ⟨w₀, hw₀, hbelow₀⟩ := h.below.world?_before hw
    obtain ⟨u, hu, hbelow⟩ := hif.world? hw
    have hproper := h.proper _ w hw
    have hproper' := hf.proper _ u hu
    have hhanded := hf.handed hmem hw₀ hu
    have hsatisfies (hs : w.isStatic a.label = false) := hgrants.satisfies hu hbelow hs
    have hc := hbelow₀.conflict?_eq_none hbelow hproper hproper' ha hsatisfies hhanded
    obtain ⟨v, htakes, hgraph, hworld, -⟩ :=
      assertOn_takes config hproper hw ha (hapart a hmem a hmem rfl) hc
    have hbelow' := htakes.below_of hbelow₀ hbelow hproper hproper' ha.bound hsatisfies hhanded
    refine ⟨_, assert_of_world? config pairing hw, ?_, h.assertOn hapart hmem ha config hw hc,
      hif.graph.trans hgraph.symm, fun c => ?_⟩
    · rw [conflict_assertOn, hc]
      rfl
    · rw [hworld]
      split
      · next hcomponent =>
        rw [hcomponent, hu]
        exact .some hbelow'
      · exact hif.worlds c

/-- Below an interpretation in which they are granted and handed on, assertions run into no conflict, in
any order and however often, and stay below. -/
theorem Onward.accept?_below (h : Onward pairing as i₀ i) (hf : Onward pairing as i₀ f) (hif : i.Below f)
    (hapart : Apart pairing as) (hu : ∀ u ∈ us, u.2 ∈ as ∧ u.2.Narrows ∧ f.Grants u.2) :
    ∃ j, i.accept? pairing us = some j ∧ j.Below f := by
  induction us generalizing i with
  | nil => exact ⟨i, rfl, hif⟩
  | cons u us ih =>
    obtain ⟨⟨hmem, ha, hgrants⟩, hrest⟩ := List.forall_mem_cons.1 hu
    obtain ⟨response, hassert, hconflict, honward, hbelow⟩ :=
      h.assert_below hf hif hapart hmem ha hgrants u.1
    obtain ⟨j, haccept, hj⟩ := ih honward hbelow hrest
    exact ⟨j, accept?_cons_eq_some.2 ⟨response, hassert, hconflict, haccept⟩, hj⟩

/-- Interpretations below each other have moved the same atoms. -/
theorem moved_congr (h : i.Below j) (h' : j.Below i) (hi : i.All IsProper) (hj : j.All IsProper)
    (c : Component) (l : Label) : i₀.Moved i c l ↔ i₀.Moved j c l := by
  have hone {i j : Interpretation} (h : i.Below j) (h' : j.Below i) (hi : i.All IsProper)
      (hj : j.All IsProper) (hmoved : i₀.Moved i c l) : i₀.Moved j c l := by
    obtain ⟨w₀, w, hw₀, hw, hsame⟩ := hmoved
    obtain ⟨v, hv, hbelow⟩ := h.world? hw
    obtain ⟨w', hw', hbelow'⟩ := h'.world? hv
    obtain rfl : w = w' := Option.some.inj (hw.symm.trans hw')
    refine ⟨w₀, v, hw₀, hv, ?_⟩
    rw [← Bool.not_eq_true] at hsame ⊢
    exact fun hvw => hsame (same_trans (hbelow.same_bound hbelow' (hi c w hw) (hj c v hv) l) hvw)
  exact ⟨hone h h' hi hj, hone h' h hj hi⟩

/-- Assertions without conflict, of labels that are not opposite to each other, run into no conflict in any
other order, lead to the same bounds and make the same labels available. -/
theorem accept?_perm (hi : i.All IsProper) (hu : ∀ u ∈ us, u.2.Narrows)
    (hapart : Apart pairing (us.map (·.2))) (hperm : us.Perm us') (h : i.accept? pairing us = some j) :
    ∃ k, i.accept? pairing us' = some k ∧ k.graph = j.graph ∧
      (∀ c l, Option.Rel (fun a b => a.same b = true) (j.bound? c l) (k.bound? c l)) ∧
      ∀ c l, j.isAvailable c l = k.isAvailable c l := by
  have hmem : ∀ u ∈ us, u.2 ∈ us.map (·.2) ∧ u.2.Narrows :=
    fun u hmem => ⟨List.mem_map_of_mem hmem, hu u hmem⟩
  have hmem' : ∀ u ∈ us', u.2 ∈ us.map (·.2) ∧ u.2.Narrows :=
    fun u h => hmem u (hperm.mem_iff.2 h)
  have hstart : Onward pairing (us.map (·.2)) i i := onward_refl hi
  -- The outcome of the first order bounds the second one.
  have hj := hstart.accept? hapart hmem h
  obtain ⟨-, -, hgranted⟩ := accept?_tightens hi (fun u h => (hmem u h).2.informs) h
  obtain ⟨k, haccept, hkj⟩ := hstart.accept?_below hj hj.below hapart fun u h =>
    ⟨(hmem' u h).1, (hmem' u h).2, hgranted u (hperm.mem_iff.2 h)⟩
  -- And the outcome of the second one bounds the first one.
  have hk := hstart.accept? hapart hmem' haccept
  obtain ⟨-, -, hgranted'⟩ := accept?_tightens hi (fun u h => (hmem' u h).2.informs) haccept
  obtain ⟨j', haccept', hjk⟩ := hstart.accept?_below hk hk.below hapart fun u h =>
    ⟨(hmem u h).1, (hmem u h).2, hgranted' u (hperm.mem_iff.1 h)⟩
  obtain rfl : j' = j := Option.some.inj (haccept'.symm.trans h)
  refine ⟨k, haccept, hjk.graph, hjk.antisymm hkj, fun c l => ?_⟩
  rw [Bool.eq_iff_iff, hj.available, hk.available, moved_congr hjk hkj hj.proper hk.proper]

end Interpretation

/-! ## Facts -/

namespace Work

variable {config : Config} {pairing : Pairing} {w : Work} {a : Assertion} {as : List Assertion}

/-- An assertion that may be passed over does not fail, and it reports whether it runs into a conflict. -/
theorem exists_response (w : Work) (config : Config) (pairing : Pairing) (hmissing : a.missing = .ignore) :
    ∃ response, w.interpretation.assert config pairing a = .ok response ∧
      (response.outcome.conflict = none ↔ w.interpretation.conflict? pairing (.assert a) = none) := by
  unfold Interpretation.conflict?
  dsimp only
  cases hw : w.interpretation.world? a.component with
  | none =>
    refine ⟨⟨w.interpretation, .nothing, []⟩, ?_, by simp [Outcome.nothing]⟩
    unfold Interpretation.assert
    rw [hw, hmissing]
  | some v =>
    refine ⟨_, Interpretation.assert_of_world? config pairing hw, ?_⟩
    rw [Interpretation.conflict_assertOn, Option.map_eq_none_iff]
    rfl

/-- An assertion without conflict does not stop the work. -/
theorem perform_of_assert {response : Response}
    (hassert : w.interpretation.assert config pairing a = .ok response)
    (hnone : response.outcome.conflict = none) :
    (w.perform config pairing (.assert a)).1.interpretation = response.interpretation ∧
      (w.perform config pairing (.assert a)).2 = none := by
  obtain ⟨i, trace, progress⟩ := w
  obtain ⟨after, outcome, entries⟩ := response
  have hrefusal : outcome.refusal? = none := by
    unfold Outcome.refusal?
    rw [show outcome.conflict = none from hnone]
    rfl
  unfold perform
  dsimp only
  rw [hassert]
  dsimp only
  rw [hrefusal]
  exact ⟨rfl, rfl⟩

/-- Assertions that may be passed over are accepted, and then they are carried out as effects without conflict,
or one of these effects runs into a conflict. -/
theorem accept?_or_conflict (w : Work) (config : Config) (pairing : Pairing)
    (hmissing : ∀ a ∈ as, a.missing = .ignore) :
    (∃ v, w.interpretation.accept? pairing (as.map (config, ·)) = some v.interpretation ∧
        w.performAll config pairing (as.map .assert) = (v, none) ∧
        ∀ x ∈ w.attempts config pairing (as.map .assert), x.conflict? pairing = none) ∨
      w.interpretation.accept? pairing (as.map (config, ·)) = none ∧
        ∃ x ∈ w.attempts config pairing (as.map .assert), x.conflict? pairing ≠ none := by
  induction as generalizing w with
  | nil => exact .inl ⟨w, rfl, rfl, by simp [attempts, logUntil]⟩
  | cons a as ih =>
    obtain ⟨ha, hrest⟩ := List.forall_mem_cons.1 hmissing
    obtain ⟨response, hassert, hconflict⟩ := w.exists_response config pairing ha
    unfold attempts performAll
    rw [List.map_cons, List.map_cons, logUntil, foldUntil, List.singleton_append, Interpretation.accept?, hassert]
    dsimp only
    by_cases hnone : response.outcome.conflict = none
    · obtain ⟨hafter, hgoes⟩ := perform_of_assert hassert hnone
      rcases hu : w.perform config pairing (.assert a) with ⟨u, halt⟩
      rw [hu] at hafter hgoes
      obtain rfl : halt = none := hgoes
      rw [if_pos hnone, ← hafter]
      rcases ih u hrest with ⟨v, haccept, hall, hattempts⟩ | ⟨haccept, x, hx, hne⟩
      · exact .inl ⟨v, haccept, hall, List.forall_mem_cons.2 ⟨hconflict.1 hnone, hattempts⟩⟩
      · exact .inr ⟨haccept, x, List.mem_cons_of_mem _ hx, hne⟩
    · rw [if_neg hnone]
      exact .inr ⟨rfl, _, List.mem_cons_self, fun h => hnone (hconflict.2 h)⟩

end Work

namespace Fact

variable {config : Config} {pairing : Pairing} {f : Fact} {facts : List Fact}

/-- The assertion that a fact makes at a timestep. -/
def assertion (config : Config) (t : Nat) (f : Fact) : Assertion where
  component := f.target
  label := f.label
  bound := f.bound
  time := t
  iteration := 0
  source := if f.fromAttribute then .graphAttribute else .fact
  name := f.name
  isStatic := f.isStatic
  replaces := decide (config.factMode = .override)
  missing := .ignore
  support := []

theorem map_effect (config : Config) (t : Nat) (facts : List Fact) :
    facts.map (Fact.effect config t) = (facts.map (Fact.assertion config t)).map .assert := by
  rw [List.map_map]
  rfl

/-- The fact does not make its atom static, and its bound is a truth value. -/
structure Transient (f : Fact) : Prop where
  isStatic : f.isStatic = false
  bound : f.bound.IsProper

theorem Transient.narrows (h : f.Transient) (hmode : config.factMode = .intersection) (t : Nat) :
    (f.assertion config t).Narrows :=
  ⟨by simp [assertion, hmode], h.isStatic, h.bound⟩

/-- No two facts of the same component have labels that are paired, and no fact has one that is paired with
itself. -/
def Unpaired (pairing : Pairing) (facts : List Fact) : Prop :=
  ∀ f ∈ facts, ∀ g ∈ facts, f.target = g.target → pairing.contains f.label g.label = false

theorem Unpaired.apart (h : Unpaired pairing facts) (config : Config) (t : Nat) :
    Interpretation.Apart pairing (facts.map (Fact.assertion config t)) := by
  intro a ha b hb hcomponent hpartner
  obtain ⟨f, hf, rfl⟩ := List.mem_map.1 ha
  obtain ⟨g, hg, rfl⟩ := List.mem_map.1 hb
  have hcontains := Pairing.contains_iff.2 (Pairing.mem_partners_iff.1 hpartner)
  rw [show (f.assertion config t).label = f.label from rfl, show (g.assertion config t).label = g.label from rfl,
    h f hf g hg hcomponent] at hcontains
  cases hcontains

end Fact

namespace Work

variable {config : Config} {pairing : Pairing} {w : Work} {t : Nat} {facts facts' : List Fact}

/-- Facts that are not static and not paired with each other can be asserted in any order: if they run into
no conflict in one order, they run into none in any other, and they lead to the same atoms with the same
bounds, of which the same have changed. -/
theorem fact_order_irrelevant (hmode : config.factMode = .intersection) (hw : w.interpretation.All IsProper)
    (htransient : ∀ f ∈ facts, f.Transient) (hunpaired : Fact.Unpaired pairing facts) (hperm : facts.Perm facts')
    (h : ∀ x ∈ w.attempts config pairing (facts.map (Fact.effect config t)), x.conflict? pairing = none) :
    (∀ x ∈ w.attempts config pairing (facts'.map (Fact.effect config t)), x.conflict? pairing = none) ∧
      ∃ v v', w.performAll config pairing (facts.map (Fact.effect config t)) = (v, none) ∧
        w.performAll config pairing (facts'.map (Fact.effect config t)) = (v', none) ∧
        v'.interpretation.graph = v.interpretation.graph ∧
        (∀ c l, Option.Rel (fun a b => a.same b = true)
          (v.interpretation.bound? c l) (v'.interpretation.bound? c l)) ∧
        ∀ c l, v.interpretation.isAvailable c l = v'.interpretation.isAvailable c l := by
  have hmissing (facts : List Fact) : ∀ a ∈ facts.map (Fact.assertion config t), a.missing = .ignore := by
    intro a ha
    obtain ⟨f, -, rfl⟩ := List.mem_map.1 ha
    rfl
  rw [Fact.map_effect] at h
  rw [Fact.map_effect, Fact.map_effect]
  rcases w.accept?_or_conflict config pairing (hmissing facts) with ⟨v, haccept, hall, -⟩ | ⟨-, x, hx, hne⟩
  · have hnarrows : ∀ u ∈ (facts.map (Fact.assertion config t)).map (config, ·), u.2.Narrows := by
      rw [List.map_map]
      intro u hu
      obtain ⟨f, hf, rfl⟩ := List.mem_map.1 hu
      exact (htransient f hf).narrows hmode t
    have hapart : Interpretation.Apart pairing
        (((facts.map (Fact.assertion config t)).map (config, ·)).map (·.2)) := by
      rw [List.map_map]
      simpa using hunpaired.apart config t
    obtain ⟨k, haccept', hgraph, hbounds, havailable⟩ :=
      Interpretation.accept?_perm hw hnarrows hapart ((hperm.map _).map _) haccept
    rcases w.accept?_or_conflict config pairing (hmissing facts') with
      ⟨v', hsame, hall', hattempts⟩ | ⟨hrefused, -⟩
    · obtain rfl : k = v'.interpretation := Option.some.inj (haccept'.symm.trans hsame)
      exact ⟨hattempts, v, v', hall, hall', hgraph, hbounds, havailable⟩
    · rw [haccept'] at hrefused
      cases hrefused
  · exact absurd (h x hx) hne

/-- Two labels with a common opposite one, a fact that narrows a label once more, and one of a component that
does not exist. -/
theorem fact_order_irrelevant_shared_opposite :
    let p : Label := ⟨"p"⟩
    let q : Label := ⟨"q"⟩
    let r : Label := ⟨"r"⟩
    let fact (name c : String) (label : Label) (lower upper : Degree) : Fact :=
      ⟨name, .node ⟨c⟩, label, .fresh lower upper, 0, 0, false, false⟩
    let facts := [fact "first" "A" p 0.5 1, fact "second" "A" r 0.25 1, fact "third" "B" q 0 0,
      fact "fourth" "A" p 0 0.75]
    let pairing : Pairing := ⟨[(p, q), (r, q)]⟩
    let w : Work := ⟨.ofGraph (Graph.empty.addNode ⟨"A"⟩) {}, {}, .nothing⟩
    ∃ v v', w.performAll .standard pairing (facts.map (Fact.effect .standard 0)) = (v, none) ∧
      w.performAll .standard pairing (facts.reverse.map (Fact.effect .standard 0)) = (v', none) ∧
      Option.Rel (fun a b => a.same b = true)
        (v.interpretation.bound? (.node ⟨"A"⟩) q) (v'.interpretation.bound? (.node ⟨"A"⟩) q) := by
  intro p q r fact facts pairing w
  have htransient : ∀ f ∈ facts, f.Transient := by
    have hproper : ∀ f ∈ facts, f.isStatic = false ∧ f.bound.IsProper := by decide +kernel
    exact fun f hf => ⟨(hproper f hf).1, (hproper f hf).2⟩
  obtain ⟨-, v, v', hall, hall', -, hbounds, -⟩ :=
    @fact_order_irrelevant .standard pairing w 0 facts facts.reverse rfl
      (Interpretation.all_ofGraph closed_isProper _ _) htransient
      (by unfold Fact.Unpaired; decide +kernel) facts.reverse_perm.symm (by decide +kernel)
  exact ⟨v, v', hall, hall', hbounds _ q⟩

end Work

end AnnotatedLogic
