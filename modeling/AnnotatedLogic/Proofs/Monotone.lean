import AnnotatedLogic.Proofs.Justified
import Mathlib.Data.List.Flatten
/-!
# Where more is known

Within a timestep bounds only narrow. A rule whose thresholds ask for at least, or for more than, so many of
all members then applies wherever it did, and what it found it finds again, possibly among more.

* `Interpretation.Fits.below`: one interpretation lies below another one over the same graph if the other one
  has its atoms, with intervals within its own, and the same ones are static.
* `Clause.found_below`, `Clause.Met.below`: what a clause finds, and whether that is enough.
* `Rule.Applicable.below`: a rule that applies still does where more is known.
* `Rule.nodeList_sublist`, `Rule.edges_below`, `Rule.support_below`: the edges that are added and the members
  that are listed keep their order.
* `Rule.ground_monotone`: the groundings where less is known are among those where more is known.
-/

namespace AnnotatedLogic

/-- A weaker test lets more members of a list through, in the same order. -/
theorem filter_sublist_filter {α : Type} {p q : α → Bool} {xs : List α}
    (h : ∀ x ∈ xs, p x = true → q x = true) : (xs.filter p).Sublist (xs.filter q) := by
  have hboth : xs.filter p = (xs.filter q).filter p := by
    rw [List.filter_filter]
    refine List.filter_congr fun x hx => ?_
    cases hp : p x with
    | false => rfl
    | true => rw [h x hx hp]; rfl
  rw [hboth]
  exact List.filter_sublist

/-- Two lists that are related to a common one, member by member, are related to each other. -/
theorem forall₂_common {α β γ : Type} {R : α → β → Prop} {S : α → γ → Prop} {T : β → γ → Prop}
    {xs : List α} {ys : List β} {zs : List γ} (hR : List.Forall₂ R xs ys) (hS : List.Forall₂ S xs zs)
    (h : ∀ x ∈ xs, ∀ y z, R x y → S x z → T y z) : List.Forall₂ T ys zs := by
  induction hR generalizing zs with
  | nil =>
    cases hS
    exact .nil
  | cons hxy _ ih =>
    obtain ⟨z, zs, hxz, hrest, rfl⟩ := List.forall₂_cons_left_iff.1 hS
    exact .cons (h _ (by simp) _ _ hxy hxz) (ih hrest fun x hx => h x (List.mem_cons_of_mem _ hx))

/-! ## One interpretation below another one -/

namespace Interpretation

variable {i j : Interpretation} {c : Component} {label : Label}

theorem isStatic_of_world? {w : World} (h : i.world? c = some w) (label : Label) :
    w.isStatic label = i.isStatic c label := by
  unfold World.isStatic isStatic
  rw [bound?_of_world? h]
  cases w.get? label <;> rfl

/-- What is static in the lower interpretation is so in the higher one, and nothing else. -/
theorem Below.isStatic (h : i.Below j) (c : Component) (label : Label) :
    j.isStatic c label = i.isStatic c label := by
  cases hw : i.world? c with
  | none =>
    have hv : j.world? c = none := by
      refine Option.eq_none_iff_forall_ne_some.2 fun v hv => ?_
      obtain ⟨w, hw', -⟩ := h.world?_before hv
      rw [hw] at hw'
      cases hw'
    unfold Interpretation.isStatic Interpretation.bound?
    rw [hw, hv]
  | some w =>
    obtain ⟨v, hv, hworlds⟩ := h.world? hw
    rw [← isStatic_of_world? hw, ← isStatic_of_world? hv, hworlds.static]

/-- An atom is static just when it is listed as such. -/
theorem Fits.isStatic_iff (h : i.Fits) : i.isStatic c label = true ↔
    (c, label) ∈ (i.atoms.filter (·.bound.isStatic)).map fun a => (a.component, a.label) := by
  unfold isStatic
  rw [Option.any_eq_true, List.mem_map]
  constructor
  · rintro ⟨v, hv, hstatic⟩
    exact ⟨⟨c, label, v⟩, List.mem_filter.2 ⟨h.mem_atoms_iff.2 hv, hstatic⟩, rfl⟩
  · rintro ⟨a, ha, heq⟩
    cases heq
    obtain ⟨hmem, hstatic⟩ := List.mem_filter.1 ha
    exact ⟨a.bound, h.mem_atoms_iff.1 hmem, hstatic⟩

/-- Over the same graph, an interpretation lies below another one that has all of its atoms, with intervals
within its own, and the same static ones. -/
theorem Fits.below (hi : i.Fits) (hj : j.Fits) (hgraph : j.graph = i.graph)
    (hatoms : ∀ c label v, i.bound? c label = some v →
      ∃ u, j.bound? c label = some u ∧ v.Contains u)
    (hstatic : ∀ c label, j.isStatic c label = i.isStatic c label) : i.Below j := by
  refine ⟨hgraph, fun c => ?_⟩
  cases hw : i.world? c with
  | none =>
    cases hv : j.world? c with
    | none => exact .none
    | some v =>
      obtain ⟨w, hw'⟩ := hi.mem.2 (hgraph ▸ hj.mem.1 ⟨v, hv⟩)
      rw [hw] at hw'
      cases hw'
  | some w =>
    obtain ⟨v, hv⟩ := hj.mem.2 (hgraph ▸ hi.mem.1 ⟨w, hw⟩)
    rw [hv]
    refine .some ⟨fun {label a} ha => ?_, fun label => ?_⟩
    · rw [← bound?_of_world? hw] at ha
      rw [← bound?_of_world? hv]
      exact hatoms c label a ha
    · rw [isStatic_of_world? hw, isStatic_of_world? hv, hstatic]

end Interpretation

/-! ## What clauses find -/

namespace Clause

variable {clause : Clause} {i j : Interpretation} {c m : Component}

theorem Qualifies.below (h : clause.Qualifies i m) (hij : i.Below j) : clause.Qualifies j m := by
  obtain ⟨v, hv, hwithin⟩ := h
  obtain ⟨u, hu, hnarrower⟩ := hij.bound? hv
  exact ⟨u, hu, hwithin.trans hnarrower⟩

/-- Over the same graph, the same members count, if all of them do. -/
theorem counted_eq (htotal : clause.threshold.subset = .total) (hij : i.Below j) (c : Component) :
    clause.counted j c = clause.counted i c := by
  unfold counted
  rw [htotal, hij.graph]

theorem length_counted_le (htotal : clause.threshold.subset = .total)
    (hlarge : i.graph.edges.length < 2 ^ 64) (c : Component) :
    (clause.counted i c).length ≤ 2 ^ 64 := by
  have hcountable := Graph.countable_surroundings hlarge c
  unfold counted
  rw [htotal]
  cases clause.kind with
  | node =>
    dsimp only
    rw [Graph.around_node, List.length_map]
    exact hcountable.nodes
  | edge =>
    dsimp only
    rw [Graph.around_edge, List.length_map]
    exact hcountable.edges

/-- What qualifies is found again, in the same order. -/
theorem found_below (htotal : clause.threshold.subset = .total) (hij : i.Below j) (c : Component) :
    (clause.found i c).Sublist (clause.found j c) := by
  unfold found
  rw [counted_eq htotal hij]
  exact List.monotone_filter_right _ fun m hm =>
    decide_eq_true ((of_decide_eq_true hm : clause.Qualifies i m).below hij)

/-- As many members as the threshold asks for are still found. -/
theorem Met.below (h : clause.Met i c) (hmono : clause.threshold.Monotone) (hij : i.Below j)
    (hlarge : i.graph.edges.length < 2 ^ 64) : clause.Met j c := by
  have hcounted := counted_eq hmono.subset hij c
  unfold Met at h ⊢
  rw [hcounted]
  refine hmono.isSatisfied (found_below hmono.subset hij c).length_le ?_
    (length_counted_le hmono.subset hlarge c) h
  rw [← hcounted]
  exact List.length_filter_le _ _

end Clause

/-! ## Where rules apply -/

namespace Rule

variable {r : Rule} {i j : Interpretation} {c : Component}

theorem Ends.below {n m : Node} {endpoint : Endpoint} (h : r.Ends i n endpoint m)
    (hmono : ∀ clause ∈ r.clauses, clause.threshold.Monotone) (hij : i.Below j) :
    r.Ends j n endpoint m := by
  cases endpoint with
  | target => exact h
  | clause index =>
    obtain ⟨clause, hclause, hm⟩ := h
    have htotal := (hmono clause (List.mem_of_getElem? hclause)).subset
    exact ⟨clause, hclause, (Clause.found_below htotal hij _).subset hm⟩

theorem Adds.below {e : Edge} (h : r.Adds i c e)
    (hmono : ∀ clause ∈ r.clauses, clause.threshold.Monotone) (hij : i.Below j) : r.Adds j c e := by
  obtain ⟨n, inference, hc, hinference, hsource, htarget, hne⟩ := h
  exact ⟨n, inference, hc, hinference, hsource.below hmono hij, htarget.below hmono hij, hne⟩

/-- A rule that applies still does where more is known. -/
theorem Applicable.below (h : r.Applicable i c)
    (hmono : ∀ clause ∈ r.clauses, clause.threshold.Monotone) (hij : i.Below j)
    (hlarge : i.graph.edges.length < 2 ^ 64) : r.Applicable j c where
  criteria e he := by
    obtain ⟨v, hv, hwithin⟩ := h.criteria e he
    obtain ⟨u, hu, hnarrower⟩ := hij.bound? hv
    exact ⟨u, hu, hwithin.trans hnarrower⟩
  free hnone := (hij.isStatic c r.target).trans (h.free hnone)
  met clause hclause := (h.met clause hclause).below (hmono clause hclause) hij hlarge
  adds hsome := by
    obtain ⟨e, he⟩ := h.adds hsome
    exact ⟨e, he.below hmono hij⟩

/-! ## The edges that are added -/

/-- The nodes of one support are among those of another one if its members are, in the same order. -/
theorem nodeList_sublist {s t : Support} (hkind : s.kind = t.kind)
    (h : s.components.Sublist t.components) : s.nodeList.Sublist t.nodeList := by
  have hinjective : Function.Injective Component.node := fun _ _ h => Component.node.inj h
  cases s with
  | nodes members =>
    cases t with
    | nodes others =>
      obtain ⟨kept, hkept, heq⟩ := List.sublist_map_iff.1 h
      rwa [← List.map_injective_iff.2 hinjective heq] at hkept
    | edges others => cases hkind
  | edges members => exact List.nil_sublist _

variable {findings findings' : List Finding} {n : Node}

/-- An end of the edges to be added stands for the same nodes and possibly more. -/
theorem nodes_below (hmono : ∀ clause ∈ r.clauses, clause.threshold.Monotone) (hij : i.Below j)
    (hlarge : i.graph.edges.length < 2 ^ 64)
    (h : evaluateAll i (i.graph.surroundings (.node n)) r.clauses = some findings)
    (h' : evaluateAll j (j.graph.surroundings (.node n)) r.clauses = some findings')
    (endpoint : Endpoint) : (endpoint.nodes n findings).Sublist (endpoint.nodes n findings') := by
  cases endpoint with
  | target => exact .refl _
  | clause index =>
    unfold Endpoint.nodes
    dsimp only
    rw [getElem?_evaluateAll h, getElem?_evaluateAll h']
    cases hclause : r.clauses[index]? with
    | none => exact .refl _
    | some clause =>
      have hmono := hmono clause (List.mem_of_getElem? hclause)
      rw [Option.bind_some, Option.bind_some]
      cases hfinding : clause.evaluate i (i.graph.surroundings (.node n)) with
      | none => exact List.nil_sublist _
      | some finding =>
        have hmet := Clause.isSome_evaluate_iff.1 (by rw [hfinding]; rfl)
        obtain ⟨finding', hfinding'⟩ :=
          Option.isSome_iff_exists.1 (Clause.isSome_evaluate_iff.2 (hmet.below hmono hij hlarge))
        obtain ⟨hkind, hcomponents⟩ := Clause.support_of_evaluate hfinding
        obtain ⟨hkind', hcomponents'⟩ := Clause.support_of_evaluate hfinding'
        rw [hfinding']
        refine nodeList_sublist (hkind.trans hkind'.symm) ?_
        rw [hcomponents, hcomponents']
        exact Clause.found_below hmono.subset hij _

/-- Pairs of ends that were joined are joined again. -/
theorem edges_below {g h : Grounding} {atomTrace : Bool}
    (hmono : ∀ clause ∈ r.clauses, clause.threshold.Monotone) (hij : i.Below j)
    (hlarge : i.graph.edges.length < 2 ^ 64) (hg : r.groundAt i atomTrace c = some g)
    (hh : r.groundAt j atomTrace c = some h) : g.edges.Sublist h.edges := by
  obtain ⟨-, findings, -, -, hfindings, hg⟩ := groundAt_cases hg
  obtain ⟨-, findings', -, -, hfindings', hh⟩ := groundAt_cases hh
  rw [(groundingOf_cases hg).2.1, (groundingOf_cases hh).2.1]
  unfold inferred?
  cases c with
  | edge e => exact .refl _
  | node n =>
    cases r.inference with
    | none => exact .refl _
    | some inference =>
      have hends := nodes_below hmono hij hlarge hfindings hfindings'
      unfold EdgeInference.edges
      exact (((hends inference.source).flatMap _).trans
        (List.Sublist.flatMap_right _ fun _ _ => (hends inference.target).map _)).filter _

/-- The members that are recorded for a clause are recorded again. -/
theorem support_below {g h : Grounding} {atomTrace : Bool}
    (hmono : ∀ clause ∈ r.clauses, clause.threshold.Monotone) (hij : i.Below j)
    (hg : r.groundAt i atomTrace c = some g) (hh : r.groundAt j atomTrace c = some h) :
    List.Forall₂ (fun s t => s.kind = t.kind ∧ s.components.Sublist t.components) g.support h.support := by
  cases atomTrace with
  | false =>
    obtain ⟨-, findings, -, -, -, hg⟩ := groundAt_cases hg
    obtain ⟨-, findings', -, -, -, hh⟩ := groundAt_cases hh
    rw [(groundingOf_cases hg).2.2, (groundingOf_cases hh).2.2]
    exact .nil
  | true =>
    refine forall₂_common ((groundAt_view hg).2.2 rfl) ((groundAt_view hh).2.2 rfl)
      fun clause hclause s t hs ht => ⟨hs.1.trans ht.1.symm, ?_⟩
    rw [hs.2, ht.2]
    exact Clause.found_below (hmono clause hclause).subset hij c

/-! ## Groundings -/

/-- The groundings are made at the candidates where there is one, in the order of the graph. -/
theorem map_component_ground (r : Rule) (i : Interpretation) (config : Config) :
    (r.ground i config).map (·.component) = (r.candidates i.graph).filter fun c =>
      (r.groundAt i config.atomTrace c).isSome := by
  have hplace : (fun c => (r.groundAt i config.atomTrace c).map (·.component))
      = Option.guard fun c => (r.groundAt i config.atomTrace c).isSome := by
    funext c
    cases hg : r.groundAt i config.atomTrace c with
    | none => simp [Option.guard, hg]
    | some g => simp [Option.guard, hg, (groundAt_view hg).1]
  rw [ground_eq, List.map_filterMap, hplace, List.filterMap_eq_filter]

theorem groundAt_of_mem_ground {config : Config} {g : Grounding} (h : g ∈ r.ground i config) :
    r.groundAt i config.atomTrace g.component = some g := by
  rw [ground_eq] at h
  obtain ⟨c, -, hg⟩ := List.mem_filterMap.1 h
  rwa [(groundAt_view hg).1]

theorem candidates_eq (r : Rule) (g : Graph) : r.candidates g = g.ofKind r.kind := by
  unfold candidates Graph.ofKind
  cases r.kind <;> rfl

/-- A valid rule whose clauses all ask for at least, or for more than, so many of all members is grounded in
two interpretations of the same graph. The second one has all atoms of the first one, with intervals within
those there, and the same atoms are static. Then the components at which the rule has a grounding in the
first one are among those in the second one, in the same order. At a component of both, the members that a
clause finds in the first one are among those that it finds in the second one, in the same order, and so are
the members that are recorded and the edges that are added. The graph is one of which a machine can count
the edges. -/
theorem ground_monotone (hr : r.validate = .ok ())
    (hmono : ∀ clause ∈ r.clauses, clause.threshold.Monotone) (hi : i.Fits) (hj : j.Fits)
    (hgraph : j.graph = i.graph) (hlarge : i.graph.edges.length < 2 ^ 64)
    (hatoms : ∀ c label v, i.bound? c label = some v →
      ∃ u, j.bound? c label = some u ∧ v.Contains u)
    (hstatic : ∀ c label, j.isStatic c label = i.isStatic c label) (config : Config) :
    ((r.ground i config).map (·.component)).Sublist ((r.ground j config).map (·.component)) ∧
      ∀ g ∈ r.ground i config, ∀ h ∈ r.ground j config, h.component = g.component →
        (∀ clause ∈ r.clauses, (clause.found i g.component).Sublist (clause.found j g.component)) ∧
        List.Forall₂ (fun s t => s.kind = t.kind ∧ s.components.Sublist t.components)
          g.support h.support ∧
        g.edges.Sublist h.edges := by
  have hij := hi.below hj hgraph hatoms hstatic
  refine ⟨?_, fun g hg h hh hcomponent => ⟨fun clause hclause =>
    Clause.found_below (hmono clause hclause).subset hij _, ?_, ?_⟩⟩
  · rw [map_component_ground, map_component_ground, candidates_eq, candidates_eq, hgraph]
    refine filter_sublist_filter fun c hc hsome => ?_
    have happlies := (exists_groundAt_iff hr hi hc config.atomTrace).1 (Option.isSome_iff_exists.1 hsome)
    exact Option.isSome_iff_exists.2 ((exists_groundAt_iff hr hj (hgraph ▸ hc) config.atomTrace).2
      (happlies.below hmono hij hlarge))
  · exact support_below hmono hij (groundAt_of_mem_ground hg) (hcomponent ▸ groundAt_of_mem_ground hh)
  · exact edges_below hmono hij hlarge (groundAt_of_mem_ground hg)
      (hcomponent ▸ groundAt_of_mem_ground hh)

/-- At least half of the successors have to hold a label, and an edge to each of them is added. In the first
interpretation one of the two successors of `a` holds it, less certainly than in the second one, where the
other successor holds it as well. The node `d` meets the criterion in the second interpretation only. -/
theorem ground_monotone_half :
    let a : Node := ⟨"a"⟩
    let b : Node := ⟨"b"⟩
    let c : Node := ⟨"c"⟩
    let d : Node := ⟨"d"⟩
    let p : Label := ⟨"p"⟩
    let s : Label := ⟨"s"⟩
    let new : Work := ⟨.ofGraph (Graph.build [] [⟨a, b⟩, ⟨a, c⟩, ⟨d, b⟩] true false) {}, #[], .nothing⟩
    let told (n : Node) (label : Label) (lower : Degree) (isStatic : Bool) : Operation :=
      ⟨.standard, {},
        .assert ⟨.node n, label, .fresh lower 1, 0, 0, .fact, "f", isStatic, false, .ignore, []⟩⟩
    let less := new.operateAll [told a s 1 true, told b p 0.75 false]
    let more := less.operateAll [told b p 1 false, told c p 0.5 false, told d s 1 false]
    let rule : Rule :=
      { Rule.simple .node "half" ⟨"q"⟩ with
        criteria := [(s, .certain)]
        clauses := [⟨.node, p, .fresh 0.5 1, ⟨.greaterEqual, .percent, .total, 0.5⟩⟩]
        inference := some ⟨.target, .clause 0, none⟩ }
    let config := { Config.standard with atomTrace := true }
    (rule.validate = .ok () ∧ (∀ clause ∈ rule.clauses, clause.threshold.Monotone) ∧
        less.interpretation.Fits ∧ more.interpretation.Fits ∧
        more.interpretation.graph = less.interpretation.graph ∧
        less.interpretation.graph.edges.length < 2 ^ 64 ∧
        (∀ x label v, less.interpretation.bound? x label = some v →
          ∃ u, more.interpretation.bound? x label = some u ∧ v.Contains u) ∧
        ∀ x label, more.interpretation.isStatic x label = less.interpretation.isStatic x label) ∧
      (rule.ground less.interpretation config).map (fun g => (g.component, g.edges, g.support))
        = [(.node a, [⟨a, b⟩], [.nodes [b]])] ∧
      (rule.ground more.interpretation config).map (fun g => (g.component, g.edges, g.support))
        = [(.node a, [⟨a, b⟩, ⟨a, c⟩], [.nodes [b, c]]), (.node d, [⟨d, b⟩], [.nodes [b]])] ∧
      ((rule.ground less.interpretation config).map (·.component)).Sublist
        ((rule.ground more.interpretation config).map (·.component)) ∧
      ∀ g ∈ rule.ground less.interpretation config, ∀ h ∈ rule.ground more.interpretation config,
        h.component = g.component → g.edges.Sublist h.edges := by
  intro a b c d p s new told less more rule config
  have hvalid : rule.validate = .ok () := by decide +kernel
  have hmono : ∀ clause ∈ rule.clauses, clause.threshold.Monotone :=
    List.forall_mem_singleton.2 ⟨.inl rfl, rfl⟩
  have hless : less.interpretation.Arises := .operateAll (w := new) (.new _ _) _
  have hmore : more.interpretation.Arises := hless.operateAll _
  have hgraph : more.interpretation.graph = less.interpretation.graph := by decide +kernel
  have hlarge : less.interpretation.graph.edges.length < 2 ^ 64 := by decide +kernel
  have hatoms : ∀ x label v, less.interpretation.bound? x label = some v →
      ∃ u, more.interpretation.bound? x label = some u ∧ v.Contains u := by
    have hlisted : ∀ y ∈ less.interpretation.atoms,
        ((more.interpretation.bound? y.component y.label).any fun u => decide (y.bound.Contains u)) = true := by
      decide +kernel
    intro x label v hv
    obtain ⟨u, hu, hwithin⟩ := (Option.any_eq_true _ _).1 (hlisted ⟨x, label, v⟩ (hless.fits.mem_atoms_iff.2 hv))
    exact ⟨u, hu, of_decide_eq_true hwithin⟩
  have hstatic : ∀ x label, more.interpretation.isStatic x label = less.interpretation.isStatic x label := by
    have hlisted : (more.interpretation.atoms.filter (·.bound.isStatic)).map (fun y => (y.component, y.label))
        = (less.interpretation.atoms.filter (·.bound.isStatic)).map fun y => (y.component, y.label) := by
      decide +kernel
    intro x label
    rw [Bool.eq_iff_iff, hmore.fits.isStatic_iff, hless.fits.isStatic_iff, hlisted]
  obtain ⟨hcandidates, hcommon⟩ := ground_monotone hvalid hmono hless.fits hmore.fits hgraph hlarge
    hatoms hstatic config
  exact ⟨⟨hvalid, hmono, hless.fits, hmore.fits, hgraph, hlarge, hatoms, hstatic⟩, by decide +kernel,
    by decide +kernel, hcandidates, fun g hg h hh hcomponent => (hcommon g hg h hh hcomponent).2.2⟩

end Rule

end AnnotatedLogic
