import AnnotatedLogic.Proofs.Degree.Fraction
import AnnotatedLogic.Proofs.Gathering
import AnnotatedLogic.Proofs.Lattice
/-!
# Interpretations that know more

One interpretation lies below another one over the same graph if the other one has all of its atoms, with
intervals that lie within its own, and the same static atoms. What a rule with monotone thresholds finds in
the lower one, it finds in the higher one as well.

* `Interval.contains_meet`: the meet of two intervals that have a degree in common is the largest interval
  within both.
* `World.Below`, `Interpretation.Below`: the order. Where two interpretations lie below each other, they
  have the same atoms with the same bounds (`Interpretation.Below.antisymm`).
* `Rule.AppliesAt`: a rule applies at a component, whatever is recorded of it. Its groundings are there
  (`Rule.appliesAt_of_mem_ground`, `Rule.AppliesAt.exists_mem_ground`).
* `Rule.AppliesAt.below`: a rule that applies still does where more is known.
-/

namespace AnnotatedLogic

theorem Degree.le_trans {x y z : Degree} (hxy : x ≤ y) (hyz : y ≤ z) : x ≤ z := by
  obtain ⟨hx, -, hp⟩ := Degree.le_iff.1 hxy
  obtain ⟨-, hz, hp'⟩ := Degree.le_iff.1 hyz
  exact Degree.le_iff.2 ⟨hx, hz, hp.trans hp'⟩

theorem Degree.lt_of_lt_of_le {x y z : Degree} (hxy : x < y) (hyz : y ≤ z) : x < z := by
  obtain ⟨hx, -, hp⟩ := Degree.lt_iff.1 hxy
  obtain ⟨-, hz, hp'⟩ := Degree.le_iff.1 hyz
  exact Degree.lt_iff.2 ⟨hx, hz, hp.trans_le hp'⟩

theorem Degree.lt_of_le_of_lt {x y z : Degree} (hxy : x ≤ y) (hyz : y < z) : x < z := by
  obtain ⟨hx, -, hp⟩ := Degree.le_iff.1 hxy
  obtain ⟨-, hz, hp'⟩ := Degree.lt_iff.1 hyz
  exact Degree.lt_iff.2 ⟨hx, hz, hp.trans_lt hp'⟩

namespace Interval

open Degree

variable {i j k : Interval}

/-! ## Intervals within intervals -/

theorem Contains.trans (hij : i.Contains j) (hjk : j.Contains k) : i.Contains k :=
  ⟨le_trans hij.1 hjk.1, le_trans hjk.2 hij.2⟩

theorem IsProper.isNumeric (h : i.IsProper) : i.IsNumeric := isNumeric_of_proper h

theorem contains_refl (h : i.IsNumeric) : i.Contains i :=
  ⟨le_iff.2 ⟨h.1, h.1, le_refl _⟩, le_iff.2 ⟨h.2, h.2, le_refl _⟩⟩

/-- Within what says nothing lies every truth value. -/
theorem unknown_contains (h : i.IsProper) : unknown.Contains i := by
  obtain ⟨hl, hu, -⟩ := h
  unfold inUnit at hl hu
  exact ⟨of_decide_eq_true (Bool.and_eq_true_iff.1 hl).1,
    of_decide_eq_true (Bool.and_eq_true_iff.1 hu).2⟩

/-- Intervals within each other have the same bounds. -/
theorem same_of_contains (hij : i.Contains j) (hji : j.Contains i) : i.same j = true := by
  obtain ⟨hil, hjl, hl⟩ := le_iff.1 hij.1
  obtain ⟨hju, hiu, hu⟩ := le_iff.1 hij.2
  exact same_iff.2 ⟨⟨hil, hiu⟩, ⟨hjl, hju⟩, hl.antisymm (le_iff.1 hji.1).2.2,
    (le_iff.1 hji.2).2.2.antisymm hu⟩

/-- Only what says nothing contains an interval that says nothing. -/
theorem isUnknown_of_contains (h : i.IsProper) (hc : i.Contains unknown) : i.isUnknown = true := by
  have hsame := same_of_contains hc (unknown_contains h)
  unfold same unknown fresh at hsame
  exact hsame

theorem contains_of_same (h : i.same j = true) : i.Contains j := by
  obtain ⟨hi, hj, hl, hu⟩ := same_iff.1 h
  exact ⟨le_iff.2 ⟨hi.1, hj.1, hl.le⟩, le_iff.2 ⟨hj.2, hi.2, hu.ge⟩⟩

/-- Two intervals with a truth value within both have a degree in common. -/
theorem not_disjoint_of_contains (hi : i.Contains k) (hj : j.Contains k) (hk : k.Ordered) :
    ¬ i.Disjoint j := by
  obtain ⟨-, hkl, hil⟩ := le_iff.1 hi.1
  obtain ⟨hku, -, hiu⟩ := le_iff.1 hi.2
  obtain ⟨-, -, hjl⟩ := le_iff.1 hj.1
  obtain ⟨-, -, hju⟩ := le_iff.1 hj.2
  rintro (hlt | hlt)
  · exact hk (lt_iff.2 ⟨hku, hkl, hju.trans_lt ((lt_iff.1 hlt).2.2.trans_le hil)⟩)
  · exact hk (lt_iff.2 ⟨hku, hkl, hiu.trans_lt ((lt_iff.1 hlt).2.2.trans_le hjl)⟩)

/-- The meet of two intervals that have a degree in common is not empty. -/
theorem meet_of_not_disjoint (hi : i.IsProper) (hj : j.IsProper) (h : ¬ i.Disjoint j) :
    ¬ i.upper.smaller j.upper < i.lower.larger j.lower := by
  obtain ⟨hil, hiu⟩ := hi.isNumeric
  obtain ⟨hjl, hju⟩ := hj.isNumeric
  intro hlt
  obtain ⟨-, -, hplace⟩ := lt_iff.1 hlt
  rw [place_smaller hiu hju, place_larger hil hjl, min_lt_iff, lt_max_iff, lt_max_iff] at hplace
  rcases hplace with (hp | hp) | (hp | hp)
  · exact hi.2.2 (lt_iff.2 ⟨hiu, hil, hp⟩)
  · exact h (.inr (lt_iff.2 ⟨hiu, hjl, hp⟩))
  · exact h (.inl (lt_iff.2 ⟨hju, hil, hp⟩))
  · exact hj.2.2 (lt_iff.2 ⟨hju, hjl, hp⟩)

/-- The meet of two intervals that have a degree in common is the largest interval within both. -/
theorem contains_meet (hi : i.IsProper) (hj : j.IsProper) (h : ¬ i.Disjoint j) :
    i.Contains (i.meet j) ∧ j.Contains (i.meet j) ∧
      ∀ {k : Interval}, i.Contains k → j.Contains k → (i.meet j).Contains k := by
  have hnonempty := meet_of_not_disjoint hi hj h
  obtain ⟨hil, hiu⟩ := hi.isNumeric
  obtain ⟨hjl, hju⟩ := hj.isNumeric
  have hlower := place_larger hil hjl
  have hupper := place_smaller hiu hju
  unfold meet
  dsimp only
  rw [if_neg hnonempty]
  refine ⟨⟨le_iff.2 ⟨hil, hil.larger, ?_⟩, le_iff.2 ⟨hiu.smaller, hiu, ?_⟩⟩,
    ⟨le_iff.2 ⟨hjl, hil.larger, ?_⟩, le_iff.2 ⟨hiu.smaller, hju, ?_⟩⟩, fun hik hjk => ⟨?_, ?_⟩⟩
  · exact hlower ▸ le_max_left _ _
  · exact hupper ▸ min_le_left _ _
  · exact hlower ▸ le_max_right _ _
  · exact hupper ▸ min_le_right _ _
  · obtain ⟨-, hkl, hp⟩ := le_iff.1 hik.1
    exact le_iff.2 ⟨hil.larger, hkl, hlower ▸ max_le hp (le_iff.1 hjk.1).2.2⟩
  · obtain ⟨hku, -, hp⟩ := le_iff.1 hik.2
    exact le_iff.2 ⟨hku, hiu.smaller, hupper ▸ le_min hp (le_iff.1 hjk.2).2.2⟩

/-- The second time, a meet changes nothing. -/
theorem meet_meet (hi : i.IsProper) (hj : j.IsProper) (h : ¬ i.Disjoint j) :
    ¬ i.Disjoint (i.meet j) ∧ i.meet (i.meet j) = i.meet j ∧ (i.meet j).isStatic = i.isStatic := by
  have hnonempty := meet_of_not_disjoint hi hj h
  have hproper := hi.meet hj
  have hmeet : i.meet j
      = { i with lower := i.lower.larger j.lower, upper := i.upper.smaller j.upper } := if_neg hnonempty
  obtain ⟨hwithin, -, -⟩ := contains_meet hi hj h
  refine ⟨not_disjoint_of_contains hwithin (contains_refl hproper.isNumeric) hproper.2.2, ?_, ?_⟩
  · rw [hmeet]
    unfold meet
    dsimp only
    rw [larger_larger, smaller_smaller, if_neg hnonempty]
  · rw [hmeet]

end Interval

/-! ## Worlds and interpretations -/

/-- The other world has all atoms, with intervals that lie within those of this one, and the same atoms
are static. -/
structure World.Below (w v : World) : Prop where
  atoms {label a} : w.get? label = some a → ∃ b, v.get? label = some b ∧ a.Contains b
  static : ∀ label, v.isStatic label = w.isStatic label

/-- Over the same graph, the worlds of one interpretation lie below those of the other one. -/
structure Interpretation.Below (i j : Interpretation) : Prop where
  graph : j.graph = i.graph
  worlds : ∀ c, Option.Rel World.Below (i.world? c) (j.world? c)

namespace World

variable {w v : World}

theorem below_refl (h : w.All Interval.IsProper) : w.Below w :=
  ⟨fun {_ a} ha => ⟨a, ha, Interval.contains_refl (h _ a ha).isNumeric⟩, fun _ => rfl⟩

theorem Below.trans {u : World} (hwv : w.Below v) (hvu : v.Below u) : w.Below u := by
  refine ⟨fun ha => ?_, fun label => (hvu.static label).trans (hwv.static label)⟩
  obtain ⟨b, hb, hab⟩ := hwv.atoms ha
  obtain ⟨c, hc, hbc⟩ := hvu.atoms hb
  exact ⟨c, hc, hab.trans hbc⟩

theorem satisfies_iff {label : Label} {b : Interval} :
    w.satisfies label b = true ↔ ∃ a, w.get? label = some a ∧ b.Contains a := by
  unfold World.satisfies
  cases w.get? label <;> simp

theorem Below.satisfies (h : w.Below v) {label : Label} {b : Interval}
    (hs : w.satisfies label b = true) : v.satisfies label b = true := by
  obtain ⟨a, ha, hb⟩ := satisfies_iff.1 hs
  obtain ⟨a', ha', hwithin⟩ := h.atoms ha
  exact satisfies_iff.2 ⟨a', ha', hb.trans hwithin⟩

end World

namespace Interpretation

variable {i j : Interpretation}

theorem below_refl (h : i.All Interval.IsProper) : i.Below i := by
  refine ⟨rfl, fun c => ?_⟩
  cases hw : i.world? c with
  | none => exact .none
  | some w => exact .some (World.below_refl (h c w hw))

namespace Below

theorem world? (h : i.Below j) {c : Component} {w : World} (hw : i.world? c = some w) :
    ∃ v, j.world? c = some v ∧ w.Below v := by
  have hc := h.worlds c
  rw [hw] at hc
  generalize j.world? c = o at hc ⊢
  cases hc with
  | some hworlds => exact ⟨_, rfl, hworlds⟩

theorem world?_before (h : i.Below j) {c : Component} {v : World} (hv : j.world? c = some v) :
    ∃ w, i.world? c = some w ∧ w.Below v := by
  have hc := h.worlds c
  rw [hv] at hc
  generalize i.world? c = o at hc ⊢
  cases hc with
  | some hworlds => exact ⟨_, rfl, hworlds⟩

theorem trans {k : Interpretation} (hij : i.Below j) (hjk : j.Below k) : i.Below k := by
  refine ⟨hjk.graph.trans hij.graph, fun c => ?_⟩
  cases hw : i.world? c with
  | none =>
    cases hu : k.world? c with
    | none => exact .none
    | some u =>
      obtain ⟨v, hv, -⟩ := hjk.world?_before hu
      obtain ⟨w, hw', -⟩ := hij.world?_before hv
      rw [hw] at hw'
      cases hw'
  | some w =>
    obtain ⟨v, hv, hwv⟩ := hij.world? hw
    obtain ⟨u, hu, hvu⟩ := hjk.world? hv
    rw [hu]
    exact .some (hwv.trans hvu)

/-- An atom of the lower interpretation is one of the higher one. -/
theorem bound? (h : i.Below j) {c : Component} {label : Label} {a : Interval}
    (ha : i.bound? c label = some a) : ∃ b, j.bound? c label = some b ∧ a.Contains b := by
  obtain ⟨w, hw, ha⟩ := Option.bind_eq_some_iff.1 ha
  obtain ⟨v, hv, hworlds⟩ := h.world? hw
  obtain ⟨b, hb, hwithin⟩ := hworlds.atoms ha
  exact ⟨b, (bound?_of_world? hv label).trans hb, hwithin⟩

/-- Interpretations below each other have the same atoms with the same bounds. -/
theorem antisymm (hij : i.Below j) (hji : j.Below i) (c : Component) (label : Label) :
    Option.Rel (fun a b => a.same b = true) (i.bound? c label) (j.bound? c label) := by
  cases ha : i.bound? c label with
  | none =>
    cases hb : j.bound? c label with
    | none => exact .none
    | some b =>
      obtain ⟨a, ha', -⟩ := hji.bound? hb
      rw [ha] at ha'
      cases ha'
  | some a =>
    obtain ⟨b, hb, hab⟩ := hij.bound? ha
    obtain ⟨a', ha', hba⟩ := hji.bound? hb
    obtain rfl : a' = a := Option.some.inj (ha'.symm.trans ha)
    rw [hb]
    exact .some (Interval.same_of_contains hab hba)

end Below

end Interpretation

/-! ## Clauses -/

/-- A machine can count the members. -/
structure Surroundings.Countable (s : Surroundings) : Prop where
  nodes : s.nodes.length ≤ 2 ^ 64
  edges : s.edges.length ≤ 2 ^ 64

/-- What a machine can count the edges of, it can count the neighbourhoods in. -/
theorem Graph.countable_surroundings {g : Graph} (h : g.edges.length < 2 ^ 64) (c : Component) :
    (g.surroundings c).Countable := by
  have hout (n : Node) : (g.outEdges n).length ≤ 2 ^ 64 := (List.length_filter_le _ _).trans h.le
  cases c with
  | node n =>
    refine ⟨?_, hout n⟩
    show ((g.outEdges n).map (·.target)).length ≤ 2 ^ 64
    rw [List.length_map]
    exact hout n
  | edge e => exact ⟨(show 2 ≤ 2 ^ 64 by decide), hout e.target⟩

namespace Clause

variable {i j : Interpretation} {c : Clause}

/-- A member that qualifies still does where more is known. -/
theorem qualifying?_below (h : i.Below j) {member : Component}
    (hq : (c.qualifying? i member).isSome = true) : (c.qualifying? j member).isSome = true := by
  unfold qualifying? at hq ⊢
  cases ha : i.bound? member c.label with
  | none =>
    rw [ha] at hq
    cases hq
  | some a =>
    obtain ⟨b, hb, hwithin⟩ := h.bound? ha
    rw [ha, Option.filter_some, Option.isSome_ite] at hq
    rw [hb, Option.filter_some, Option.isSome_ite]
    exact decide_eq_true ((of_decide_eq_true hq).trans hwithin)

/-- The members that are found are those that qualify. -/
theorem map_fst_found {α : Type} (c : Clause) (i : Interpretation) (component : α → Component)
    (members : List α) :
    (members.filterMap fun m => (c.qualifying? i (component m)).map (m, ·)).map (·.1)
      = members.filter fun m => (c.qualifying? i (component m)).isSome := by
  induction members with
  | nil => rfl
  | cons m members ih =>
    rw [List.filterMap_cons, List.filter_cons]
    cases c.qualifying? i (component m) with
    | none => exact ih
    | some v => exact congrArg (m :: ·) ih

/-- What is selected is selected among more where more is known. -/
theorem select_below (hc : c.threshold.Monotone) (h : i.Below j) {α : Type} (component : α → Component)
    {members : List α} (hlarge : members.length ≤ 2 ^ 64) {selected : List α × Matched}
    (hs : c.select i component members = some selected) :
    ∃ selected', c.select j component members = some selected' ∧
      selected.1.Sublist selected'.1 := by
  have hsublist : (members.filter fun m => (c.qualifying? i (component m)).isSome).Sublist
      (members.filter fun m => (c.qualifying? j (component m)).isSome) :=
    List.monotone_filter_right members fun _ => qualifying?_below h
  rw [← map_fst_found, ← map_fst_found] at hsublist
  have hfewer := hsublist.length_le
  rw [List.length_map, List.length_map] at hfewer
  unfold select population at hs ⊢
  rw [hc.subset] at hs ⊢
  dsimp only at hs ⊢
  split at hs
  · next hmet =>
    cases hs
    rw [if_pos (hc.isSatisfied hfewer (List.length_filterMap_le _ _) hlarge hmet)]
    exact ⟨_, rfl, hsublist⟩
  · cases hs

theorem evaluate_below (hc : c.threshold.Monotone) (h : i.Below j) {s : Surroundings}
    (hs : s.Countable) (he : (c.evaluate i s).isSome = true) : (c.evaluate j s).isSome = true := by
  unfold evaluate at he ⊢
  cases hkind : c.kind with
  | node =>
    rw [hkind, Option.isSome_map] at he
    obtain ⟨selected, hselected⟩ := Option.isSome_iff_exists.1 he
    obtain ⟨selected', hselected', -⟩ := select_below hc h .node hs.nodes hselected
    dsimp only
    rw [hselected']
    rfl
  | edge =>
    rw [hkind, Option.isSome_map] at he
    obtain ⟨selected, hselected⟩ := Option.isSome_iff_exists.1 he
    obtain ⟨selected', hselected', -⟩ := select_below hc h .edge hs.edges hselected
    dsimp only
    rw [hselected']
    rfl

end Clause

theorem evaluateAll_isSome_iff {i : Interpretation} {s : Surroundings} {clauses : List Clause} :
    (evaluateAll i s clauses).isSome = true ↔ ∀ c ∈ clauses, (c.evaluate i s).isSome = true := by
  induction clauses with
  | nil => simp [evaluateAll]
  | cons c clauses ih =>
    rw [evaluateAll, List.forall_mem_cons, ← ih]
    cases c.evaluate i s with
    | none => simp
    | some finding => simp

/-! ## Rules -/

namespace Rule

variable {r : Rule} {i j : Interpretation} {c : Component}

/-- The rule applies at a component, whatever is recorded of it. -/
structure AppliesAt (r : Rule) (i : Interpretation) (c : Component) : Prop where
  candidate : c ∈ r.candidates i.graph
  admitted : ∃ w, i.world? c = some w ∧ r.admits c w = true
  met : (evaluateAll i (i.graph.surroundings c) r.clauses).isSome = true

theorem groundAt_cases {atomTrace : Bool} {g : Grounding} (h : r.groundAt i atomTrace c = some g) :
    ∃ w findings, i.world? c = some w ∧ r.admits c w = true ∧
      evaluateAll i (i.graph.surroundings c) r.clauses = some findings ∧
      r.groundingOf atomTrace c findings = some g := by
  unfold groundAt at h
  split at h
  · cases h
  · next w hw =>
    split at h
    · next hadmits =>
      obtain ⟨findings, hfindings, hg⟩ := Option.bind_eq_some_iff.1 h
      exact ⟨w, findings, hw, hadmits, hfindings, hg⟩
    · cases h

/-- A rule without edge inference makes one grounding of what its clauses find. -/
theorem groundingOf_eq (hr : r.inference = none) (atomTrace : Bool) (c : Component)
    (findings : List Finding) :
    r.groundingOf atomTrace c findings = some
      ⟨c, r.headBound findings, [], if atomTrace then findings.map (·.support) else []⟩ := by
  have hinferred : r.inferred? c findings = none := by
    unfold inferred?
    rw [hr]
    cases c <;> rfl
  unfold groundingOf
  rw [hinferred]

theorem appliesAt_of_mem_ground (hr : r.inference = none) {config : Config} {g : Grounding}
    (h : g ∈ r.ground i config) : r.AppliesAt i g.component ∧ g.edges = [] := by
  rw [ground_eq] at h
  obtain ⟨c, hcandidate, hg⟩ := List.mem_filterMap.1 h
  obtain ⟨w, findings, hw, hadmits, hfindings, hg⟩ := groundAt_cases hg
  rw [groundingOf_eq hr] at hg
  cases hg
  exact ⟨⟨hcandidate, ⟨w, hw, hadmits⟩, by rw [hfindings]; rfl⟩, rfl⟩

theorem AppliesAt.exists_mem_ground (h : r.AppliesAt i c) (hr : r.inference = none) (config : Config) :
    ∃ g ∈ r.ground i config, g.component = c := by
  obtain ⟨hcandidate, ⟨w, hw, hadmits⟩, hmet⟩ := h
  obtain ⟨findings, hfindings⟩ := Option.isSome_iff_exists.1 hmet
  refine ⟨⟨c, r.headBound findings, [],
    if config.atomTrace then findings.map (·.support) else []⟩, ?_, rfl⟩
  rw [ground_eq, List.mem_filterMap]
  refine ⟨c, hcandidate, ?_⟩
  unfold groundAt
  rw [hw]
  dsimp only
  rw [if_pos hadmits, hfindings, Option.bind_some, groundingOf_eq hr]

/-- A rule that applies still does where more is known. -/
theorem AppliesAt.below (h : r.AppliesAt i c) (hr : ∀ clause ∈ r.clauses, clause.threshold.Monotone)
    (hij : i.Below j) (hlarge : i.graph.edges.length < 2 ^ 64) : r.AppliesAt j c := by
  obtain ⟨hcandidate, ⟨w, hw, hadmits⟩, hmet⟩ := h
  obtain ⟨v, hv, hworlds⟩ := hij.world? hw
  rw [evaluateAll_isSome_iff] at hmet
  refine ⟨hij.graph ▸ hcandidate, ⟨v, hv, ?_⟩, ?_⟩
  · unfold admits meetsCriteria at hadmits ⊢
    rw [Bool.and_eq_true, List.all_eq_true] at hadmits ⊢
    rw [hworlds.static]
    exact ⟨fun e he => hworlds.satisfies (hadmits.1 e he), hadmits.2⟩
  · rw [hij.graph, evaluateAll_isSome_iff]
    exact fun clause hclause => Clause.evaluate_below (hr clause hclause) hij
      (Graph.countable_surroundings hlarge c) (hmet clause hclause)

end Rule

end AnnotatedLogic
