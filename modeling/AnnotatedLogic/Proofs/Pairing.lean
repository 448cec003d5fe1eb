import AnnotatedLogic.Proofs.Exchange
import AnnotatedLogic.Proofs.Interpretation
import AnnotatedLogic.Proofs.Lattice
/-!
# Pairings read and pairings built

`Pairing.add` keeps pairs apart; a list of pairs in a document is taken as it stands. Whether the two
pairings that one list leads to can be told apart depends on whether the list has its pairs apart.

* `addAll`: the pairs of a list added one after the other. It drops pairs and keeps the order
  (`addAll_sublist`), what is left is apart (`distinct_addAll`), and a list that is apart is kept whole
  (`addAll_eq`).
* `Interchangeable`: assertions cannot tell two pairings apart.
* `forgotten`: where a contradiction is resolved, the trace shows how many opposites a label has. So a
  dropped pair shows.
* `read_interchangeable_iff`: a pairing that is read behaves like the one that is built just when the
  list has its pairs apart. `read_self_pair` is a list that has not.
-/

namespace AnnotatedLogic

namespace Pairing

/-! ## Pairs that are apart -/

/-- No label is paired with itself, and no two labels are paired twice, in either order. -/
structure Distinct (pairs : List (Label × Label)) : Prop where
  irreflexive : ∀ pair ∈ pairs, pair.1 ≠ pair.2
  apart : pairs.Pairwise fun x y => x ≠ y ∧ x ≠ y.swap

theorem contains_iff {p : Pairing} {a b : Label} :
    p.contains a b = true ↔ (a, b) ∈ p.pairs ∨ (b, a) ∈ p.pairs := by
  unfold contains
  rw [List.any_eq_true]
  constructor
  · rintro ⟨⟨x, y⟩, hmem, h⟩
    rcases Bool.or_eq_true_iff.1 h with h | h <;> obtain ⟨rfl, rfl⟩ := of_decide_eq_true h
    · exact .inl hmem
    · exact .inr hmem
  · rintro (hmem | hmem)
    · exact ⟨_, hmem, by simp⟩
    · exact ⟨_, hmem, by simp⟩

/-- `add` takes a pair just when the pairs stay apart. -/
theorem distinct_append {pairs : List (Label × Label)} (h : Distinct pairs) {a b : Label} :
    Distinct (pairs ++ [(a, b)]) ↔ ¬ (a = b ∨ (⟨pairs⟩ : Pairing).contains a b = true) := by
  rw [contains_iff, not_or, not_or]
  constructor
  · rintro ⟨hirr, hapart⟩
    have hlast := (List.pairwise_append.1 hapart).2.2
    refine ⟨hirr (a, b) (by simp), fun hmem => ?_, fun hmem => ?_⟩
    · exact (hlast _ hmem (a, b) (by simp)).1 rfl
    · exact (hlast _ hmem (a, b) (by simp)).2 rfl
  · rintro ⟨hne, hab, hba⟩
    refine ⟨fun pair hpair => ?_, List.pairwise_append.2 ⟨h.apart, by simp, ?_⟩⟩
    · rcases List.mem_append.1 hpair with hpair | hpair
      · exact h.irreflexive pair hpair
      · exact List.mem_singleton.1 hpair ▸ hne
    · intro x hx y hy
      rw [List.mem_singleton.1 hy]
      exact ⟨fun hx' => hab (hx' ▸ hx), fun hx' => hba (by rw [hx'] at hx; exact hx)⟩

/-! ## Adding one after the other -/

/-- The pairs of a list, added one after the other. -/
def addAll (pairs : List (Label × Label)) : Pairing :=
  pairs.foldl (fun p pair => p.add pair.1 pair.2) {}

theorem distinct_add {p : Pairing} (h : Distinct p.pairs) (a b : Label) :
    Distinct (p.add a b).pairs := by
  unfold add
  split
  · exact h
  · next hnew => exact (distinct_append h).2 hnew

private theorem distinct_foldl_add (pairs : List (Label × Label)) {p : Pairing}
    (h : Distinct p.pairs) :
    Distinct (pairs.foldl (fun p pair => p.add pair.1 pair.2) p).pairs := by
  induction pairs generalizing p with
  | nil => exact h
  | cons pair pairs ih => exact ih (distinct_add h pair.1 pair.2)

/-- What has been added is apart. -/
theorem distinct_addAll (pairs : List (Label × Label)) : Distinct (addAll pairs).pairs :=
  distinct_foldl_add pairs ⟨by simp, List.Pairwise.nil⟩

private theorem foldl_add_sublist (pairs : List (Label × Label)) (p : Pairing) :
    (pairs.foldl (fun p pair => p.add pair.1 pair.2) p).pairs.Sublist (p.pairs ++ pairs) := by
  induction pairs generalizing p with
  | nil => simp
  | cons pair pairs ih =>
    have hadd : (p.add pair.1 pair.2).pairs.Sublist (p.pairs ++ [pair]) := by
      unfold add
      split
      · exact List.sublist_append_left ..
      · exact List.Sublist.refl _
    have h := (ih (p.add pair.1 pair.2)).trans (hadd.append_right pairs)
    rwa [List.append_assoc, List.singleton_append] at h

/-- Adding drops pairs and keeps the order of the others. -/
theorem addAll_sublist (pairs : List (Label × Label)) : (addAll pairs).pairs.Sublist pairs :=
  foldl_add_sublist pairs {}

private theorem foldl_add_eq (pairs : List (Label × Label)) {p : Pairing}
    (h : Distinct (p.pairs ++ pairs)) :
    pairs.foldl (fun p pair => p.add pair.1 pair.2) p = ⟨p.pairs ++ pairs⟩ := by
  induction pairs generalizing p with
  | nil => simp
  | cons pair pairs ih =>
    rw [List.append_cons] at h ⊢
    have hfirst : Distinct (p.pairs ++ [pair]) :=
      ⟨fun e he => h.irreflexive e (List.mem_append_left _ he), (List.pairwise_append.1 h.apart).1⟩
    have hp : Distinct p.pairs :=
      ⟨fun e he => hfirst.irreflexive e (List.mem_append_left _ he),
        (List.pairwise_append.1 hfirst.apart).1⟩
    have hadd : p.add pair.1 pair.2 = ⟨p.pairs ++ [pair]⟩ :=
      if_neg ((distinct_append hp).1 hfirst)
    rw [List.foldl_cons, hadd]
    exact ih h

/-- A list that is apart is kept whole. -/
theorem addAll_eq {pairs : List (Label × Label)} (h : Distinct pairs) : addAll pairs = ⟨pairs⟩ :=
  foldl_add_eq pairs h

/-! ## What assertions show of a pairing -/

end Pairing

/-- What can be seen of an assertion: the interpretation after it, whether an atom changed and how
much as a convergence criterion measures it, the contradiction that was met, and the trace entries. -/
def Response.observed (mode : Convergence) (r : Response) :
    Interpretation × Bool × Degree × Option Conflict × List TraceEntry :=
  (r.interpretation, r.outcome.changed, r.outcome.delta mode, r.outcome.conflict, r.entries)

namespace Pairing

/-- No assertion of a truth value tells two pairings apart, whatever the interpretation and the
configuration. -/
def Interchangeable (p q : Pairing) : Prop :=
  ∀ (i : Interpretation) (config : Config) (a : Assertion), a.bound.IsProper →
    (i.assert config p a).map (Response.observed config.convergence) =
      (i.assert config q a).map (Response.observed config.convergence)

/-- A node of which a label is certainly true. -/
private def certainOf (label : Label) : Interpretation :=
  (Interpretation.ofGraph (Graph.build [⟨"A"⟩] [] true false) {}).putWorld (.node ⟨"A"⟩)
    (World.empty.put label .certain)

/-- The assertion that the label is certainly false. -/
private def denial (label : Label) : Assertion :=
  ⟨.node ⟨"A"⟩, label, .impossible, 0, 0, .fact, "", false, false, .ignore, []⟩

theorem length_changeEach {f : World → Label → World × List Change}
    (hf : ∀ w label, (f w label).2.length = 1) (w : World) (labels : List Label) :
    (World.changeEach f w labels).2.length = labels.length := by
  induction labels generalizing w with
  | nil => rfl
  | cons label labels ih =>
    unfold World.changeEach
    dsimp only
    rw [List.length_append, hf, ih, List.length_cons, Nat.add_comm]

/-- Where a contradiction is resolved, the label and each of its opposites is traced. -/
theorem forgotten (p : Pairing) (label : Label) :
    ∃ r, (certainOf label).assert { Config.standard with atomTrace := true } p (denial label) = .ok r ∧
      r.entries.length = (p.partners label).length + 1 := by
  have hworld : (certainOf label).world? (denial label).component
      = some (World.empty.put label .certain) := by
    unfold certainOf denial
    rw [Interpretation.world?_putWorld, if_pos rfl]
  have hget : (World.empty.put label .certain).get? label = some .certain := by
    rw [World.get?_put, if_pos rfl]
  have hstatic : ¬ (World.empty.put label .certain).isStatic label = true := by
    rw [World.isStatic_of_get? hget]
    decide
  have hclash : (World.empty.put label .certain).judge label .impossible (p.partners label)
      = .clashes label .certain .impossible := by
    unfold World.judge World.preview
    rw [World.bound_of_get? hget, if_pos (by decide)]
  refine ⟨_, by unfold Interpretation.assert; rw [hworld], ?_⟩
  unfold Interpretation.assertOn denial
  dsimp only
  rw [if_neg hstatic, if_neg Bool.false_ne_true, hclash]
  show (List.map _ (World.forgetAll ..).2).length = _
  rw [List.length_map]
  unfold World.forgetAll
  rw [length_changeEach (fun _ _ => rfl), List.length_cons]

/-- Pairings that assertions cannot tell apart give every label as many opposites. -/
theorem Interchangeable.length_partners {p q : Pairing} (h : Interchangeable p q) (label : Label) :
    (p.partners label).length = (q.partners label).length := by
  obtain ⟨r, hr, hrlen⟩ := forgotten p label
  obtain ⟨s, hs, hslen⟩ := forgotten q label
  have heq := h (certainOf label) { Config.standard with atomTrace := true } (denial label)
    (by decide : Interval.impossible.IsProper)
  rw [hr, hs] at heq
  have hentries : r.entries = s.entries := by
    injection heq with heq
    exact congrArg (·.2.2.2.2) heq
  rw [hentries] at hrlen
  exact Nat.succ.inj (hrlen.symm.trans hslen)

/-- A list without some of its pairs gives a label of a missing pair fewer opposites. -/
theorem eq_of_length_partners {short long : List (Label × Label)} (hsub : short.Sublist long)
    (h : ∀ label, ((⟨long⟩ : Pairing).partners label).length
      = ((⟨short⟩ : Pairing).partners label).length) : short = long := by
  unfold partners at h
  dsimp only at h
  induction hsub with
  | slnil => rfl
  | @cons short long pair hsub ih =>
    have hle := (hsub.filterMap (opposite? pair.1)).length_le
    have hmore := h pair.1
    rw [List.filterMap_cons_some (b := pair.2) (by simp [opposite?]), List.length_cons] at hmore
    omega
  | @cons_cons short long pair hsub ih =>
    refine congrArg (pair :: ·) (ih fun label => ?_)
    have hboth := h label
    rw [List.filterMap_cons, List.filterMap_cons] at hboth
    cases hopp : opposite? label pair with
    | none => rwa [hopp] at hboth
    | some other =>
      rw [hopp] at hboth
      exact Nat.succ.inj hboth

/-- A pairing that is read from a document behaves like the one that its pairs are added to just when
the list has its pairs apart: adding drops what is repeated, reading keeps it. -/
theorem read_interchangeable_iff (pairs : List (Label × Label)) :
    ∃ p, reader (toDocument ⟨pairs⟩) = .value p ∧
      (Interchangeable p (addAll pairs) ↔ Distinct pairs) := by
  refine ⟨⟨pairs⟩, (faithful _).reads, fun h => ?_, fun h => ?_⟩
  · have heq : (addAll pairs).pairs = pairs :=
      eq_of_length_partners (addAll_sublist pairs) h.length_partners
    exact heq ▸ distinct_addAll pairs
  · rw [addAll_eq h]
    exact fun _ _ _ _ => rfl

/-- A label that is paired with itself in a document learns the complement of what it has just
learned. `add` does not pair a label with itself. -/
theorem read_self_pair :
    ∃ p, reader (.array [.array [.text "p", .text "p"]]) = .value p ∧
      ¬ Interchangeable p (addAll [(⟨"p"⟩, ⟨"p"⟩)]) := by
  refine ⟨⟨[(⟨"p"⟩, ⟨"p"⟩)]⟩, rfl, fun h => ?_⟩
  have hboth := h (.ofGraph (Graph.build [⟨"A"⟩] [] true false) {}) .standard
    { denial ⟨"p"⟩ with bound := .fresh 0.5 0.8 } (by decide +kernel)
  exact absurd hboth (by decide +kernel)

end Pairing

end AnnotatedLogic
