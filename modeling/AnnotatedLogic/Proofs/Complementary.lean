import AnnotatedLogic.Proofs.Accepted
import AnnotatedLogic.Proofs.Opposites
import AnnotatedLogic.Proofs.Pairing
/-!
# Pairs that stay complementary

Each time a label narrows by an assertion, its opposite labels learn the complement. What they learn is not
handed on in turn. So two labels of a pair stay complementary, whatever is asserted, just when neither has
another opposite label.

Values are compared exactly, by `Degree.units`; for this the complements of the asserted bounds must not be
rounded (`Interval.Exact`).

* `Interval.Matches`: an interval lies within the exact complement of another one.
* `Interval.Complements.learning`: what learns, and what learns its complement, stay complements.
* `World.Balanced`: two labels of a world are complements. An assertion keeps this if neither has another
  opposite label (`World.Balanced.told`).
* `Pairing.keepsComplementary_iff`: the pairs that stay complementary. `chain_not_complementary` is one that
  does not.
-/

namespace AnnotatedLogic

open Degree

/-! ## Exact values -/

namespace Interval

variable {i j b : Interval}

/-- The complements of both bounds are not rounded. -/
structure Exact (i : Interval) : Prop where
  lower : i.lower.Exact
  upper : i.upper.Exact

/-- The other interval lies within the complement `[1 - upper, 1 - lower]`, computed exactly. -/
structure Matches (i j : Interval) : Prop where
  lower : whole ≤ i.upper.units + j.lower.units
  upper : i.lower.units + j.upper.units ≤ whole

instance (i j : Interval) : Decidable (i.Matches j) :=
  decidable_of_iff (whole ≤ i.upper.units + j.lower.units ∧ i.lower.units + j.upper.units ≤ whole)
    ⟨fun h => ⟨h.1, h.2⟩, fun h => ⟨h.1, h.2⟩⟩

/-- The intervals are the complements of each other, computed exactly. -/
structure Complements (i j : Interval) : Prop where
  lower : i.lower.units + j.upper.units = whole
  upper : i.upper.units + j.lower.units = whole

theorem Complements.symm (h : i.Complements j) : j.Complements i :=
  ⟨(Nat.add_comm ..).trans h.upper, (Nat.add_comm ..).trans h.lower⟩

theorem Complements.matches (h : i.Complements j) : i.Matches j := ⟨h.upper.ge, h.lower.le⟩

/-- A truth value with exact complements that resets do not pass by. -/
structure Plain (i : Interval) : Prop where
  proper : i.IsProper
  exact : i.Exact
  free : i.isStatic = false

theorem plain_unknown : unknown.Plain := ⟨by decide, ⟨by decide +kernel, by decide +kernel⟩, rfl⟩

theorem plain_certain : certain.Plain := ⟨by decide, ⟨by decide +kernel, by decide +kernel⟩, rfl⟩

theorem Plain.learning (hi : i.Plain) (hb : b.IsProper) (hexact : b.Exact) (h : ¬ i.Disjoint b) :
    (i.learning b).Plain := by
  obtain ⟨hlower, hupper⟩ := learning_cases hi.proper hb h
  refine ⟨hi.proper.learning hb, ⟨?_, ?_⟩, (isStatic_learning hi.proper hb h).trans hi.free⟩
  · rcases hlower with heq | heq <;> rw [heq]
    exacts [hi.exact.lower, hexact.lower]
  · rcases hupper with heq | heq <;> rw [heq]
    exacts [hi.exact.upper, hexact.upper]

theorem Exact.complement (h : i.Exact) (hi : i.IsProper) : i.complement.Exact :=
  ⟨h.upper.one_sub hi.2.1, h.lower.one_sub hi.1⟩

/-- The bounds of what learns, exactly. -/
theorem units_learning (hi : i.IsProper) (hb : b.IsProper) (h : ¬ i.Disjoint b) :
    (i.learning b).lower.units = max i.lower.units b.lower.units ∧
      (i.learning b).upper.units = min i.upper.units b.upper.units := by
  have hlearning := hi.learning hb
  obtain ⟨hlower, hupper⟩ := learning_cases hi hb h
  obtain ⟨hwithin, hwithin', -⟩ := contains_learning hi hb h
  have hi_lower := (le_iff_units hi.1 hlearning.1).1 hwithin.1
  have hi_upper := (le_iff_units hlearning.2.1 hi.2.1).1 hwithin.2
  have hb_lower := (le_iff_units hb.1 hlearning.1).1 hwithin'.1
  have hb_upper := (le_iff_units hlearning.2.1 hb.2.1).1 hwithin'.2
  constructor
  · rcases hlower with heq | heq <;> rw [heq] at hi_lower hb_lower ⊢ <;> omega
  · rcases hupper with heq | heq <;> rw [heq] at hi_upper hb_upper ⊢ <;> omega

/-- Where one interval learns a bound, and the other one the complement of the outcome, they stay
complements. -/
theorem Complements.learning (h : i.Complements j) (hi : i.Plain) (hj : j.Plain) (hb : b.IsProper)
    (hexact : b.Exact) (hdisjoint : ¬ i.Disjoint b) (hfree : ¬ j.Disjoint (i.learning b).complement) :
    (i.learning b).Complements (j.learning (i.learning b).complement) := by
  have hlearning := hi.learning hb hexact hdisjoint
  obtain ⟨hlower, hupper⟩ := units_learning hi.proper hb hdisjoint
  obtain ⟨hlower', hupper'⟩ :=
    units_learning hj.proper (closed_isProper.complement hlearning.proper) hfree
  have hexact_lower : _ + (1 - (i.learning b).lower).units = whole := hlearning.exact.lower
  have hexact_upper : _ + (1 - (i.learning b).upper).units = whole := hlearning.exact.upper
  have hold_lower := h.lower
  have hold_upper := h.upper
  constructor
  · rw [hupper', show (i.learning b).complement.upper = 1 - (i.learning b).lower from rfl]
    omega
  · rw [hlower', show (i.learning b).complement.lower = 1 - (i.learning b).upper from rfl]
    omega

end Interval

open AnnotatedLogic.Interval

/-! ## Worlds -/

/-- The two labels are complements of each other, and all values of the world are plain. -/
structure World.Balanced (w : World) (p q : Label) : Prop where
  plain : w.All Plain
  complements : (w.bound p).Complements (w.bound q)

namespace World

variable {w v : World} {label p q : Label} {b : Interval} {opposites : List Label}

theorem plain_bound (h : w.All Plain) (label : Label) : (w.bound label).Plain := by
  cases hl : w.get? label with
  | none =>
    rw [bound_of_get?_eq_none hl]
    exact plain_unknown
  | some i =>
    rw [bound_of_get? hl]
    exact h label i hl

theorem Balanced.symm (h : w.Balanced p q) : w.Balanced q p := ⟨h.plain, h.complements.symm⟩

/-- Plain values stay plain. -/
theorem plain_told (h : w.All Plain) (hb : b.IsProper) (hexact : b.Exact)
    (hown : ¬ (w.bound label).Disjoint b)
    (hfree : w.Narrows label b → ∀ o ∈ opposites,
      ¬ (w.bound o).Disjoint ((w.bound label).meet b).complement)
    (hv : ∀ l, v.get? l = w.told label b opposites l) : v.All Plain := by
  have hlearnt := (plain_bound h label).learning hb hexact hown
  intro l k hk
  rw [hv, told] at hk
  split at hk
  · cases hk
    exact hlearnt
  · split at hk
    · next hlearns =>
      cases hk
      obtain ⟨hnarrows, hl, -⟩ := hlearns
      rw [learning_eq_meet hnarrows] at hlearnt
      exact (plain_bound h l).learning (closed_isProper.complement hlearnt.proper)
        (hlearnt.exact.complement hlearnt.proper) (hfree hnarrows l hl)
    · exact h l k hk

/-- One of two balanced labels is asserted, and the other one is its only opposite label. -/
theorem Balanced.told_self (h : w.Balanced p q) (hpq : p ≠ q) (hb : b.IsProper) (hexact : b.Exact)
    (hown : ¬ (w.bound p).Disjoint b)
    (hfree : w.Narrows p b → ¬ (w.bound q).Disjoint ((w.bound p).meet b).complement)
    (hv : ∀ l, v.get? l = w.told p b [q] l) : (v.bound p).Complements (v.bound q) := by
  have hp := plain_bound h.plain p
  have hq := plain_bound h.plain q
  rw [bound_of_told (hv p), bound_of_told (hv q), if_pos rfl, if_neg hpq.symm]
  by_cases hnarrows : w.Narrows p b
  · have hlearns : w.Narrows p b ∧ q ∈ [q] ∧ w.isStatic q = false :=
      ⟨hnarrows, List.mem_singleton_self q, (w.isStatic_bound q).symm.trans hq.free⟩
    rw [if_pos hlearns, ← learning_eq_meet hnarrows]
    have hfree := hfree hnarrows
    rw [← learning_eq_meet hnarrows] at hfree
    exact h.complements.learning hp hq hb hexact hown hfree
  · rw [if_neg fun hlearns => hnarrows hlearns.1,
      learning_eq_self (Bool.eq_true_of_not_eq_false hnarrows)]
    exact h.complements

/-- An assertion that runs into no conflict keeps two labels balanced that have no other opposite label. -/
theorem Balanced.told {pairing : Pairing} (h : w.Balanced p q) (hpq : p ≠ q)
    (hp : pairing.partners p = [q]) (hq : pairing.partners q = [p]) (hb : b.IsProper) (hexact : b.Exact)
    (hown : ¬ (w.bound label).Disjoint b)
    (hfree : w.Narrows label b → ∀ o ∈ pairing.partners label,
      ¬ (w.bound o).Disjoint ((w.bound label).meet b).complement)
    (hv : ∀ l, v.get? l = w.told label b (pairing.partners label) l) : v.Balanced p q := by
  refine ⟨plain_told h.plain hb hexact hown hfree hv, ?_⟩
  by_cases hlp : label = p
  · subst hlp
    rw [hp] at hfree hv
    exact h.told_self hpq hb hexact hown (fun hnarrows => hfree hnarrows q (by simp)) hv
  by_cases hlq : label = q
  · subst hlq
    rw [hq] at hfree hv
    exact (h.symm.told_self hpq.symm hb hexact hown (fun hnarrows => hfree hnarrows p (by simp)) hv).symm
  · -- Both have no other opposite label, so the label is opposite to neither of them.
    have hnot_p : p ∉ pairing.partners label := fun hmem => by
      rw [Pairing.mem_partners_comm, hp] at hmem
      exact hlq (List.mem_singleton.1 hmem)
    have hnot_q : q ∉ pairing.partners label := fun hmem => by
      rw [Pairing.mem_partners_comm, hq] at hmem
      exact hlp (List.mem_singleton.1 hmem)
    rw [bound_of_told (hv p), bound_of_told (hv q), if_neg (Ne.symm hlp), if_neg (Ne.symm hlq),
      if_neg fun hlearns => hnot_p hlearns.2.1, if_neg fun hlearns => hnot_q hlearns.2.1]
    exact h.complements

end World

/-! ## Interpretations -/

namespace Interpretation

variable {config : Config} {pairing : Pairing} {i j : Interpretation} {a : Assertion}
  {us : List (Config × Assertion)} {p q : Label}

/-- In every world the two labels are complements of each other. -/
def Balanced (i : Interpretation) (p q : Label) : Prop := ∀ c w, i.world? c = some w → w.Balanced p q

theorem balanced_ofGraph (graph : Graph) (labelling : Labelling) (p q : Label) :
    (ofGraph graph labelling).Balanced p q := by
  intro c w hw
  obtain ⟨d, -, heq⟩ := List.mem_map.1 (Table.mem_of_get?_ofList hw)
  cases heq
  have hunknown (l : Label) : (World.ofLabels (labelling.forComponent c)).bound l = .unknown := by
    unfold World.bound
    rw [World.get?_ofLabels]
    split <;> rfl
  refine ⟨fun l k hk => ?_, ?_⟩
  · rw [World.get?_ofLabels] at hk
    split at hk
    · cases hk
      exact plain_unknown
    · cases hk
  · rw [hunknown, hunknown]
    exact ⟨by decide +kernel, by decide +kernel⟩

/-- An assertion without conflict keeps two labels balanced that have no other opposite label. -/
theorem Balanced.assert (h : i.Balanced p q) (hirreflexive : ∀ pair ∈ pairing.pairs, pair.1 ≠ pair.2)
    (hp : pairing.partners p = [q]) (hq : pairing.partners q = [p]) (ha : a.Narrows)
    (hexact : a.bound.Exact) {response : Response} (hassert : i.assert config pairing a = .ok response)
    (hc : response.outcome.conflict = none) : response.interpretation.Balanced p q := by
  have hpq : p ≠ q := fun heq =>
    Pairing.not_mem_partners_self hirreflexive p (by rw [hp, heq]; exact List.mem_singleton_self q)
  rcases assert_cases hassert with ⟨w, hw, rfl⟩ | ⟨-, rfl⟩
  · rw [conflict_assertOn, Option.map_eq_none_iff] at hc
    have hbalanced := h _ w hw
    have hproper : w.All IsProper := fun l k hk => (hbalanced.plain l k hk).proper
    have hs : w.isStatic a.label = false :=
      (w.isStatic_bound a.label).symm.trans (World.plain_bound hbalanced.plain a.label).free
    obtain ⟨hown, hfree⟩ := (Assertion.conflict?_eq_none_iff hs ha.replaces).1 hc
    obtain ⟨v, changes, hafter, hview, -⟩ := assertOn_told i config hproper ha.bound hs ha.replaces
      (Pairing.not_mem_partners_self hirreflexive a.label) hc
    rw [hafter, Assertion.freeze_of_not_static ha.isStatic v]
    intro c u hu
    rw [(commit_view i config a v changes "" none).2] at hu
    split at hu
    · cases hu
      exact hbalanced.told hpq hp hq ha.bound hexact hown hfree hview
    · exact h c u hu
  · exact h

theorem Balanced.accept? (h : i.Balanced p q)
    (hirreflexive : ∀ pair ∈ pairing.pairs, pair.1 ≠ pair.2) (hp : pairing.partners p = [q])
    (hq : pairing.partners q = [p]) (hu : ∀ u ∈ us, u.2.Narrows ∧ u.2.bound.Exact)
    (haccept : i.accept? pairing us = some j) : j.Balanced p q := by
  induction us generalizing i with
  | nil =>
    cases haccept
    exact h
  | cons u us ih =>
    obtain ⟨⟨ha, hexact⟩, hrest⟩ := List.forall_mem_cons.1 hu
    obtain ⟨response, hassert, hconflict, haccept⟩ := accept?_cons_eq_some.1 haccept
    exact ih (h.assert hirreflexive hp hq ha hexact hassert hconflict) hrest haccept

end Interpretation

/-! ## Pairs -/

namespace Pairing

open Interpretation

/-- Whatever is asserted of new interpretations without conflict, with bounds of which the complements are
not rounded, and of no label as static: each of the two labels lies within the complement of the other
one. -/
def KeepsComplementary (pairing : Pairing) (p q : Label) : Prop :=
  ∀ (graph : Graph) (labelling : Labelling) (us : List (Config × Assertion)) (j : Interpretation),
    (∀ u ∈ us, u.2.Narrows ∧ u.2.bound.Exact) →
    (ofGraph graph labelling).accept? pairing us = some j →
    ∀ c w, j.world? c = some w → (w.bound p).Matches (w.bound q) ∧ (w.bound q).Matches (w.bound p)

/-- What becomes of the opposite labels of one that is asserted as certain in an empty world. -/
theorem told_empty {label q : Label} (hne : q ≠ label) {opposites : List Label} {v : World}
    (hv : ∀ l, v.get? l = World.empty.told label .certain opposites l) :
    (v.bound q).lower.units = 0 ∧ (q ∈ opposites → (v.bound q).upper.units = 0) := by
  have hnarrows : World.empty.Narrows label .certain := by
    show (unknown.meet .certain).same unknown = false
    decide +kernel
  rw [World.bound_of_told (hv q), if_neg hne]
  by_cases hq : q ∈ opposites
  · rw [if_pos ⟨hnarrows, hq, rfl⟩]
    show (unknown.learning (unknown.meet .certain).complement).lower.units = 0 ∧
      (_ → (unknown.learning (unknown.meet .certain).complement).upper.units = 0)
    exact ⟨by decide +kernel, fun _ => by decide +kernel⟩
  · rw [if_neg fun hlearns => hq hlearns.2.1]
    show unknown.lower.units = 0 ∧ _
    exact ⟨by decide +kernel, fun h => absurd h hq⟩

/-- The label is asserted as certain of a node. -/
def certainly (n : Node) (label : Label) : Assertion :=
  ⟨.node n, label, .certain, 0, 0, .fact, "certain", false, false, .ignore, []⟩

/-- In an interpretation of one node without labels, any label can be certain. -/
theorem accept?_certainly {pairing : Pairing} (h : ∀ pair ∈ pairing.pairs, pair.1 ≠ pair.2)
    {i : Interpretation} {n : Node} (hw : i.world? (.node n) = some World.empty) (label : Label) :
    ∃ j v, i.accept? pairing [(.standard, certainly n label)] = some j ∧ j.world? (.node n) = some v ∧
      ∀ l, v.get? l = World.empty.told label .certain (pairing.partners label) l := by
  have hempty : World.empty.All IsProper := fun _ _ h => by cases h
  have hnone : (certainly n label).conflict? pairing World.empty = none := by
    refine (Assertion.conflict?_eq_none_iff rfl rfl).2 ⟨?_, fun _ o _ => ?_⟩
    · show ¬ unknown.Disjoint .certain
      decide +kernel
    · show ¬ unknown.Disjoint (unknown.meet .certain).complement
      decide +kernel
  obtain ⟨v, changes, hafter, hview, -⟩ := assertOn_told (a := certainly n label) i .standard hempty
    plain_certain.proper rfl rfl (not_mem_partners_self h label) hnone
  have haccept : i.accept? pairing [(.standard, certainly n label)] =
      some (i.assertOn .standard pairing (certainly n label) World.empty).interpretation := by
    refine accept?_cons_eq_some.2 ⟨_, assert_of_world? .standard pairing hw, ?_, rfl⟩
    rw [conflict_assertOn, hnone]
    rfl
  refine ⟨_, v, haccept, ?_, hview⟩
  rw [hafter, Assertion.freeze_of_not_static rfl v, (commit_view ..).2]
  exact if_pos rfl

/-- A third label that is opposite to one of a pair gets them apart: asserted as certain, it makes its
opposite label impossible, and the other one of the pair does not become certain. -/
theorem KeepsComplementary.eq_of_mem {pairing : Pairing} {p q r : Label}
    (hirreflexive : ∀ pair ∈ pairing.pairs, pair.1 ≠ pair.2) (h : pairing.KeepsComplementary p q)
    (hr : r ∈ pairing.partners p) : r = q := by
  by_contra hne
  have hpr : p ≠ r := fun heq => not_mem_partners_self hirreflexive p (heq ▸ hr)
  obtain ⟨j, v, haccept, hworld, hview⟩ :=
    accept?_certainly hirreflexive (i := ofGraph (Graph.empty.addNode ⟨"A"⟩) {}) (n := ⟨"A"⟩) rfl r
  have hexact : ∀ u ∈ [(Config.standard, certainly ⟨"A"⟩ r)], u.2.Narrows ∧ u.2.bound.Exact :=
    List.forall_mem_singleton.2 ⟨⟨rfl, rfl, plain_certain.proper⟩, plain_certain.exact⟩
  obtain ⟨hmatches, -⟩ := h _ _ _ _ hexact haccept _ v hworld
  have hlower := hmatches.lower
  rw [(told_empty hpr hview).2 (mem_partners_comm.1 hr), (told_empty (Ne.symm hne) hview).1] at hlower
  exact absurd hlower (by decide +kernel)

/-- Each label has an opposite label once. -/
theorem nodup_partners {pairing : Pairing} (h : Distinct pairing.pairs) (label : Label) :
    (pairing.partners label).Nodup := by
  refine List.Pairwise.filterMap _ (fun x y hxy a ha b hb heq => ?_) h.apart
  subst heq
  rcases opposite?_eq_some.1 ha with rfl | rfl <;> rcases opposite?_eq_some.1 hb with rfl | rfl
  · exact hxy.1 rfl
  · exact hxy.2 rfl
  · exact hxy.2 rfl
  · exact hxy.1 rfl

theorem KeepsComplementary.symm {pairing : Pairing} {p q : Label} (h : pairing.KeepsComplementary p q) :
    pairing.KeepsComplementary q p :=
  fun graph labelling us j hu haccept c w hw => (h graph labelling us j hu haccept c w hw).symm

/-- The pairs that stay complementary are those of which neither label has another opposite label: in all
states that any assertions of new interpretations lead to, unless one of them runs into a conflict, and for
all components. -/
theorem keepsComplementary_iff (pairs : List (Label × Label)) {p q : Label}
    (hq : q ∈ (addAll pairs).partners p) :
    (addAll pairs).KeepsComplementary p q ↔
      (addAll pairs).partners p = [q] ∧ (addAll pairs).partners q = [p] := by
  have hdistinct := distinct_addAll pairs
  constructor
  · intro h
    have hsingle {a b : Label} (h : (addAll pairs).KeepsComplementary a b)
        (hb : b ∈ (addAll pairs).partners a) : (addAll pairs).partners a = [b] := by
      have hall : ∀ r ∈ (addAll pairs).partners a, r = b :=
        fun r hr => h.eq_of_mem hdistinct.irreflexive hr
      have hreplicate := List.eq_replicate_of_mem hall
      have hnodup := nodup_partners hdistinct a
      rw [hreplicate, List.nodup_replicate] at hnodup
      have hpos := List.length_pos_of_mem hb
      rw [hreplicate, show ((addAll pairs).partners a).length = 1 by omega]
      rfl
    exact ⟨hsingle h hq, hsingle h.symm (mem_partners_comm.1 hq)⟩
  · rintro ⟨hp, hq'⟩ graph labelling us j hu haccept c w hw
    have hbalanced := (balanced_ofGraph graph labelling p q).accept? hdistinct.irreflexive hp hq' hu
      haccept c w hw
    exact ⟨hbalanced.complements.matches, hbalanced.symm.complements.matches⟩

/-- Of three pairs, two make a chain. The third one stays complementary. -/
theorem keepsComplementary_iff_three_pairs :
    let pairs : List (Label × Label) := [(⟨"p"⟩, ⟨"q"⟩), (⟨"q"⟩, ⟨"r"⟩), (⟨"s"⟩, ⟨"t"⟩)]
    ¬ (addAll pairs).KeepsComplementary ⟨"q"⟩ ⟨"r"⟩ ∧ (addAll pairs).KeepsComplementary ⟨"s"⟩ ⟨"t"⟩ := by
  intro pairs
  have hqr : (⟨"r"⟩ : Label) ∈ (addAll pairs).partners ⟨"q"⟩ := by decide +kernel
  have hst : (⟨"t"⟩ : Label) ∈ (addAll pairs).partners ⟨"s"⟩ := by decide +kernel
  exact ⟨fun h => absurd ((keepsComplementary_iff pairs hqr).1 h) (by decide +kernel),
    (keepsComplementary_iff pairs hst).2 (by decide +kernel)⟩

/-- In a chain of two pairs, the first label becomes certain and the second one impossible. Nothing is said
to the third one, although it is opposite to the second one. -/
theorem chain_not_complementary :
    let q : Label := ⟨"q"⟩
    let r : Label := ⟨"r"⟩
    let pairing := addAll [(⟨"p"⟩, q), (q, r)]
    let a := certainly ⟨"A"⟩ ⟨"p"⟩
    r ∈ pairing.partners q ∧ a.Narrows ∧ a.bound.Exact ∧
      ∃ j w, (ofGraph (Graph.empty.addNode ⟨"A"⟩) {}).accept? pairing [(.standard, a)] = some j ∧
        j.world? (.node ⟨"A"⟩) = some w ∧ w.bound q = ⟨0, 0, 0, 1, false⟩ ∧ w.bound r = .unknown ∧
        ¬ (w.bound q).Matches (w.bound r) := by
  intro q r pairing a
  let i := ofGraph (Graph.empty.addNode ⟨"A"⟩) {}
  let j := (i.accept? pairing [(.standard, a)]).get (by decide +kernel)
  exact ⟨by decide +kernel, ⟨rfl, rfl, plain_certain.proper⟩, plain_certain.exact, j,
    (j.world? (.node ⟨"A"⟩)).get (by decide +kernel), (Option.some_get _).symm, (Option.some_get _).symm,
    by decide +kernel, by decide +kernel, by decide +kernel⟩

-- In a longer chain, both labels of a pair can become impossible.
example :
    let pairing := addAll [(⟨"p"⟩, ⟨"q"⟩), (⟨"q"⟩, ⟨"r"⟩), (⟨"r"⟩, ⟨"s"⟩)]
    let i := ofGraph (Graph.empty.addNode ⟨"A"⟩) {}
    let both := [(.standard, certainly ⟨"A"⟩ ⟨"p"⟩), (.standard, certainly ⟨"A"⟩ ⟨"s"⟩)]
    (i.accept? pairing both).map (fun j => [j.bound? (.node ⟨"A"⟩) ⟨"q"⟩, j.bound? (.node ⟨"A"⟩) ⟨"r"⟩])
      = some [some ⟨0, 0, 0, 1, false⟩, some ⟨0, 0, 0, 1, false⟩] := by
  decide +kernel

end Pairing

end AnnotatedLogic
