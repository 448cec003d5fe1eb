import AnnotatedLogic.Proofs.Bounds
/-!
# Groundings keep to the graph

An effect fails if it asks for an edge to a node that is not there, or insists on a component that is
not there. Groundings never do: what they name is in the graph that they are read off, and a graph
only grows. This holds also of a grounding that has waited for its timestep while other rules have
added edges.

* `Graph.Grows`: the same nodes and no edge less. Effects let a graph grow
  (`Work.grows_graph_perform`).
* `Feasible`: effects that do not fail in any state over a graph.
* `Grounding.Rooted`: the component of a grounding and the ends of its edges are in a graph.
* `Rule.rooted_of_mem_ground`: groundings are rooted in the graph that they are read off.
* `Grounding.Rooted.feasible`: rooted groundings do not fail.
-/

namespace AnnotatedLogic

/-! ## Graphs that grow -/

/-- The same nodes, and no edge less. -/
structure Graph.Grows (g h : Graph) : Prop where
  nodes : h.nodes = g.nodes
  edges : g.edges <+: h.edges

namespace Graph.Grows

variable {g h k : Graph}

theorem refl (g : Graph) : g.Grows g := ⟨rfl, List.prefix_refl _⟩

theorem trans (hgh : g.Grows h) (hhk : h.Grows k) : g.Grows k :=
  ⟨hhk.nodes.trans hgh.nodes, hgh.edges.trans hhk.edges⟩

theorem mem_components (hgh : g.Grows h) {c : Component} (hc : c ∈ g.components) :
    c ∈ h.components := by
  unfold components at hc ⊢
  rw [hgh.nodes]
  rcases List.mem_append.1 hc with hc | hc
  · exact List.mem_append_left _ hc
  · exact List.mem_append_right _ (List.map_subset _ hgh.edges.subset hc)

end Graph.Grows

theorem Interpretation.grows_addEdge {i j : Interpretation} {e : Edge} (h : i.addEdge e = .ok j) :
    i.graph.Grows j.graph ∧ e ∈ j.graph.edges := by
  rcases addEdge_cases h with ⟨he, rfl⟩ | ⟨-, g, hnodes, hedges, rfl⟩
  · exact ⟨.refl _, he⟩
  · have hmem : e ∈ g.edges := by
      rw [hedges]
      simp
    exact ⟨⟨hnodes, i.graph.edges.prefix_append [e] |>.trans (hedges ▸ List.prefix_refl _)⟩, hmem⟩

/-- An edge between nodes of the graph can be added. -/
theorem Interpretation.addEdge_ok {i : Interpretation} {e : Edge} (hs : e.source ∈ i.graph.nodes)
    (ht : e.target ∈ i.graph.nodes) : ∃ j, i.addEdge e = .ok j := by
  unfold addEdge
  split
  · exact ⟨i, rfl⟩
  · unfold Graph.addEdge
    rw [dif_pos hs, dif_pos ht]
    exact ⟨_, rfl⟩

/-! ## Effects over a graph -/

/-- Worlds belong to components, and the graph has grown from another one. -/
structure Work.Over (g : Graph) (w : Work) : Prop where
  fits : w.interpretation.Fits
  grows : g.Grows w.interpretation.graph

/-- Work stopped because of a conflict, and not because something failed. -/
def Halt.IsConflict : Halt → Prop
  | .conflict _ => True
  | .failure _ => False

namespace Work

variable {g : Graph} {config : Config} {pairing : Pairing}

/-- Effects let the graph grow. -/
theorem grows_graph_perform (config : Config) (pairing : Pairing) (w : Work) (e : Effect) :
    w.interpretation.graph.Grows (w.perform config pairing e).1.interpretation.graph := by
  rcases w.perform_cases config pairing e with
    ⟨edge, j, -, hadd, hi, -⟩ | ⟨a, v, -, hv, hi, -⟩ | ⟨hi, -⟩
  · rw [hi]
    exact (Interpretation.grows_addEdge hadd).1
  · obtain ⟨u, changes, message, -, hafter, -, -⟩ := Interpretation.assertOn_edits
      (P := fun _ => True) Interval.closed_true config pairing hv (fun _ _ _ => trivial) trivial
    rw [hi, hafter, Interpretation.foldl_log]
    exact .refl _
  · rw [hi]
    exact .refl _

theorem grows_graph_performAll (config : Config) (pairing : Pairing) (w : Work)
    (effects : List Effect) :
    w.interpretation.graph.Grows (w.performAll config pairing effects).1.interpretation.graph :=
  foldUntil_trans (R := fun w v : Work => w.interpretation.graph.Grows v.interpretation.graph)
    (fun w => .refl w.interpretation.graph) Graph.Grows.trans (grows_graph_perform config pairing) w
    effects

theorem Over.perform {w : Work} (hw : w.Over g) (e : Effect) :
    (w.perform config pairing e).1.Over g := by
  have hcarried := w.perform_carries (P := fun _ => True) Interval.closed_true config pairing
    (e := e) (by cases e <;> trivial) hw.fits (fun _ _ _ _ _ _ => trivial)
  exact ⟨hcarried.1, hw.grows.trans (w.grows_graph_perform config pairing e)⟩

end Work

namespace Reasoner

/-- The graph grows in a timestep. -/
theorem grows_graph_timestep (r : Reasoner) (t : Nat) :
    r.interpretation.graph.Grows (r.timestep t).1.interpretation.graph := by
  have hstart : r.interpretation.graph.Grows (r.startWork t).interpretation.graph := by
    unfold startWork
    dsimp only
    split <;> exact .refl _
  obtain ⟨-, hgrows⟩ := timestep_invariant (r := r) (t := t)
    (P := fun _ i _ => r.interpretation.graph.Grows i.graph)
    (fun {_ e} _ w hw => hw.trans (w.grows_graph_perform r.config r.pairing e)) (fun h => h) hstart
  exact hgrows

end Reasoner

/-- What an effect asks for is in the graph. A component that may be missing is not asked for. -/
def Effect.Possible (g : Graph) : Effect → Prop
  | .link e => e.source ∈ g.nodes ∧ e.target ∈ g.nodes
  | .assert a => a.missing = .ignore ∨ a.component ∈ g.components

namespace Work

variable {g : Graph} {config : Config} {pairing : Pairing}

/-- What is in a graph is there however the graph has grown, so the effect does not fail. -/
theorem perform_possible {w : Work} (hw : w.Over g) {e : Effect} (he : e.Possible g) :
    ∀ halt ∈ (w.perform config pairing e).2, halt.IsConflict := by
  obtain ⟨i, trace, progress⟩ := w
  have hnodes : i.graph.nodes = g.nodes := hw.grows.nodes
  cases e with
  | link e =>
    obtain ⟨j, hj⟩ := Interpretation.addEdge_ok (i := i) (e := e) (hnodes ▸ he.1) (hnodes ▸ he.2)
    simp only [perform, hj, Option.mem_def]
    rintro halt ⟨⟩
  | assert a =>
    have hok : ∃ response, i.assert config pairing a = .ok response := by
      unfold Interpretation.assert
      cases hworld : i.world? a.component with
      | some v => exact ⟨_, rfl⟩
      | none =>
        rcases he with hmissing | hmem
        · rw [hmissing]
          exact ⟨_, rfl⟩
        · obtain ⟨v, hv⟩ := hw.fits.mem.2 (hw.grows.mem_components hmem)
          rw [show i.world? a.component = some v from hv] at hworld
          cases hworld
    obtain ⟨⟨j, outcome, entries⟩, hresponse⟩ := hok
    simp only [perform, hresponse]
    split
    · rintro halt ⟨⟩
      trivial
    · rintro halt ⟨⟩

end Work

/-- Effects that do not fail in any state over a graph. -/
def Feasible (config : Config) (pairing : Pairing) (g : Graph) (effects : List Effect) : Prop :=
  ∀ w : Work, w.Over g → (w.performAll config pairing effects).1.Over g ∧
    ∀ halt ∈ (w.performAll config pairing effects).2, halt.IsConflict

namespace Feasible

variable {config : Config} {pairing : Pairing} {g : Graph}

theorem nil (config : Config) (pairing : Pairing) (g : Graph) : Feasible config pairing g [] :=
  fun _ hw => ⟨hw, by simp [Work.performAll]⟩

theorem of_possible {effects : List Effect} (h : ∀ e ∈ effects, e.Possible g) :
    Feasible config pairing g effects := fun _ hw =>
  foldUntil_reason (P := Work.Over g)
    (fun e he _ hu => ⟨hu.perform e, Work.perform_possible hu (h e he)⟩) hw

theorem append {first second : List Effect} (h : Feasible config pairing g first)
    (h' : Feasible config pairing g second) : Feasible config pairing g (first ++ second) := by
  intro w hw
  have hfirst := h w hw
  unfold Work.performAll at hfirst ⊢
  rw [foldUntil_append]
  split
  · next heq => rw [heq] at hfirst; exact hfirst
  · next heq => rw [heq] at hfirst; exact h' _ hfirst.1

theorem flatMap {α : Type} {xs : List α} {f : α → List Effect}
    (h : ∀ x ∈ xs, Feasible config pairing g (f x)) :
    Feasible config pairing g (xs.flatMap f) := by
  induction xs with
  | nil => exact .nil config pairing g
  | cons x xs ih =>
    rw [List.flatMap_cons]
    exact (h x (by simp)).append (ih fun y hy => h y (by simp [hy]))

end Feasible

/-! ## Groundings -/

/-- The component of the grounding and the ends of the edges that it adds are in the graph. -/
structure Grounding.Rooted (graph : Graph) (g : Grounding) : Prop where
  component : g.component ∈ graph.components
  ends : ∀ e ∈ g.edges, e.source ∈ graph.nodes ∧ e.target ∈ graph.nodes

theorem Grounding.Rooted.grows {graph graph' : Graph} {g : Grounding} (h : g.Rooted graph)
    (hgrows : graph.Grows graph') : g.Rooted graph' := by
  refine ⟨hgrows.mem_components h.component, fun e he => ?_⟩
  rw [hgrows.nodes]
  exact h.ends e he

/-- The nodes that a clause finds are among those that it ranges over. -/
theorem Clause.nodeList_evaluate {c : Clause} {i : Interpretation} {s : Surroundings}
    {finding : Finding} (h : c.evaluate i s = some finding) :
    finding.support.nodeList ⊆ s.nodes := by
  unfold evaluate at h
  cases hk : c.kind with
  | edge =>
    rw [hk] at h
    obtain ⟨found, -, rfl⟩ := Option.map_eq_some_iff.1 h
    exact List.nil_subset _
  | node =>
    rw [hk] at h
    obtain ⟨⟨members, m⟩, hselect, rfl⟩ := Option.map_eq_some_iff.1 h
    intro n hn
    unfold select at hselect
    dsimp only at hselect
    split at hselect
    · cases hselect
      obtain ⟨⟨n', v⟩, hmem, rfl⟩ := List.mem_map.1 hn
      obtain ⟨n'', hpopulation, hqualifying⟩ := List.mem_filterMap.1 hmem
      obtain ⟨v', -, heq⟩ := Option.map_eq_some_iff.1 hqualifying
      cases heq
      unfold population at hpopulation
      split at hpopulation
      · exact hpopulation
      · exact (List.mem_filter.1 hpopulation).1
    · cases hselect

theorem nodeList_evaluateAll {i : Interpretation} {s : Surroundings} {clauses : List Clause}
    {findings : List Finding} (h : evaluateAll i s clauses = some findings) :
    ∀ finding ∈ findings, finding.support.nodeList ⊆ s.nodes := by
  induction clauses generalizing findings with
  | nil =>
    cases h
    simp
  | cons c cs ih =>
    rw [evaluateAll] at h
    cases hc : c.evaluate i s with
    | none =>
      rw [hc] at h
      cases h
    | some finding =>
      rw [hc] at h
      obtain ⟨others, hothers, rfl⟩ := Option.map_eq_some_iff.1 h
      intro f hf
      rcases List.mem_cons.1 hf with rfl | hf
      · exact Clause.nodeList_evaluate hc
      · exact ih hothers f hf

theorem Graph.nodes_surroundings {g : Graph} {n : Node} :
    (g.surroundings (.node n)).nodes ⊆ g.nodes := by
  intro m hm
  obtain ⟨e, he, rfl⟩ := List.mem_map.1 hm
  exact (g.ends_mem e (List.mem_filter.1 he).1).2

/-- An end of an inferred edge is the node itself or one that a clause has found. -/
theorem Endpoint.mem_nodes {n m : Node} {findings : List Finding} {endpoint : Endpoint}
    (h : m ∈ endpoint.nodes n findings) :
    m = n ∨ ∃ finding ∈ findings, m ∈ finding.support.nodeList := by
  unfold nodes at h
  split at h
  · exact .inl (List.mem_singleton.1 h)
  · split at h
    · next finding hfinding => exact .inr ⟨finding, List.mem_of_getElem? hfinding, h⟩
    · cases h

theorem EdgeInference.ends_of_mem_edges {inference : EdgeInference} {n : Node}
    {findings : List Finding} {e : Edge} (h : e ∈ inference.edges n findings) :
    e.source ∈ inference.source.nodes n findings ∧ e.target ∈ inference.target.nodes n findings := by
  unfold edges at h
  obtain ⟨s, hs, hmem⟩ := List.mem_flatMap.1 (List.mem_filter.1 h).1
  obtain ⟨t, ht, rfl⟩ := List.mem_map.1 hmem
  exact ⟨hs, ht⟩

/-- A grounding is made at its candidate, of what the clauses find there. -/
theorem Rule.mem_ground_cases {r : Rule} {i : Interpretation} {config : Config} {g : Grounding}
    (h : g ∈ r.ground i config) :
    g.component ∈ r.candidates i.graph ∧
      ∃ findings, evaluateAll i (i.graph.surroundings g.component) r.clauses = some findings ∧
        (g.edges = [] ∨ ∃ (n : Node) (inference : EdgeInference),
          g.component = .node n ∧ g.edges = inference.edges n findings) := by
  rw [Rule.ground_eq] at h
  obtain ⟨c, hc, hg⟩ := List.mem_filterMap.1 h
  unfold groundAt at hg
  split at hg
  · cases hg
  · split at hg
    · obtain ⟨findings, hfindings, hg⟩ := Option.bind_eq_some_iff.1 hg
      unfold groundingOf at hg
      dsimp only at hg
      split at hg
      · cases hg
        exact ⟨hc, findings, hfindings, .inl rfl⟩
      · cases hg
      · next hinferred =>
        cases hg
        refine ⟨hc, findings, hfindings, .inr ?_⟩
        unfold inferred? at hinferred
        split at hinferred
        · next n inference _ _ _ =>
          cases hinferred
          exact ⟨n, inference, rfl, rfl⟩
        · cases hinferred
    · cases hg

/-- Groundings are rooted in the graph that they are read off. -/
theorem Rule.rooted_of_mem_ground {r : Rule} {i : Interpretation} {config : Config} {g : Grounding}
    (h : g ∈ r.ground i config) : g.Rooted i.graph := by
  obtain ⟨hc, findings, hfindings, hedges⟩ := mem_ground_cases h
  have hcomponent : g.component ∈ i.graph.components := by
    unfold candidates at hc
    split at hc
    · exact List.mem_append_left _ hc
    · exact List.mem_append_right _ hc
  refine ⟨hcomponent, ?_⟩
  rcases hedges with hnone | ⟨n, inference, hnode, hedges⟩
  · rw [hnone]
    simp
  · rw [hnode] at hcomponent hfindings
    have hn : n ∈ i.graph.nodes := Graph.node_mem_components.1 hcomponent
    have hend {endpoint : Endpoint} {m : Node} (hm : m ∈ endpoint.nodes n findings) :
        m ∈ i.graph.nodes := by
      rcases Endpoint.mem_nodes hm with rfl | ⟨finding, hfinding, hm⟩
      · exact hn
      · exact Graph.nodes_surroundings (nodeList_evaluateAll hfindings finding hfinding hm)
    intro e he
    rw [hedges] at he
    obtain ⟨hs, ht⟩ := EdgeInference.ends_of_mem_edges he
    exact ⟨hend hs, hend ht⟩

/-- Edges that are added are there afterwards. -/
theorem Work.mem_edges_of_links {config : Config} {pairing : Pairing} {w v : Work}
    {edges : List Edge} (h : w.performAll config pairing (edges.map .link) = (v, none)) :
    ∀ e ∈ edges, e ∈ v.interpretation.graph.edges := by
  induction edges generalizing w with
  | nil => simp
  | cons e edges ih =>
    obtain ⟨i, trace, progress⟩ := w
    rw [List.map_cons, performAll, foldUntil, perform] at h
    cases hadd : i.addEdge e with
    | error error =>
      rw [hadd] at h
      cases h
    | ok j =>
      rw [hadd] at h
      have hrest : (Work.mk j trace progress).performAll config pairing (edges.map .link)
        = (v, none) := h
      have hgrows := (Work.mk j trace progress).grows_graph_performAll config pairing (edges.map .link)
      rw [hrest] at hgrows
      intro d hd
      rcases List.mem_cons.1 hd with rfl | hd
      · exact hgrows.edges.subset (Interpretation.grows_addEdge hadd).2
      · exact ih hrest d hd

theorem Rule.component_of_mem_edgeAssertions {r : Rule} {g : Grounding} {t iteration : Nat}
    {e : Edge} {a : Assertion} (h : a ∈ r.edgeAssertions g t iteration e) :
    a.component = .edge e := by
  unfold edgeAssertions at h
  dsimp only at h
  rw [List.mem_append, List.mem_singleton] at h
  rcases h with h | rfl
  · split at h
    · rw [List.mem_singleton.1 h]
      rfl
    · cases h
  · rfl

/-- A grounding that is rooted in a graph does not fail over it. Its edges are added first, so they
are there when something is asserted of them. -/
theorem Grounding.Rooted.feasible {graph : Graph} {g : Grounding} (h : g.Rooted graph)
    (config : Config) (pairing : Pairing) (r : Rule) (t iteration : Nat) :
    Feasible config pairing graph (r.effects t iteration g) := by
  unfold Rule.effects
  split
  · refine .of_possible fun e he => ?_
    rw [List.mem_singleton.1 he]
    exact .inr h.component
  · intro w hw
    have hlinks : Feasible config pairing graph (g.edges.map .link) := by
      refine .of_possible fun e he => ?_
      obtain ⟨edge, hedge, rfl⟩ := List.mem_map.1 he
      exact h.ends edge hedge
    have hfirst := hlinks w hw
    unfold Work.performAll at hfirst ⊢
    rw [foldUntil_append]
    split
    · next heq => rw [heq] at hfirst; exact hfirst
    · next v heq =>
      rw [heq] at hfirst
      have hadded := Work.mem_edges_of_links heq
      have hassertions : Feasible config pairing v.interpretation.graph
          ((g.edges.flatMap (r.edgeAssertions g t iteration)).map .assert) := by
        refine .of_possible fun e he => ?_
        obtain ⟨a, ha, rfl⟩ := List.mem_map.1 he
        obtain ⟨edge, hedge, ha⟩ := List.mem_flatMap.1 ha
        refine .inr ?_
        rw [Rule.component_of_mem_edgeAssertions ha, Graph.edge_mem_components]
        exact hadded edge hedge
      have hrest := hassertions v ⟨hfirst.1.fits, .refl _⟩
      exact ⟨⟨hrest.1.fits, hfirst.1.grows.trans hrest.1.grows⟩, hrest.2⟩

end AnnotatedLogic
