import AnnotatedLogic.Proofs.Table
import AnnotatedLogic.Proofs.World
/-!
# Interpretations and how they change

* `Fits`: the components that have worlds are those of the graph, in their order. New
  interpretations fit, and whatever happens to one keeps that.
* `world?_putWorld`, `bound?_putWorld`, `world?_reset`, `bound?_ofGraph`, `addEdge_cases`, `commit_view`:
  the view of an interpretation after each operation.
* `assertOn_edits`: an assertion edits the world of its component, logs the edits that are no
  resolution of a contradiction, and traces all of them.
-/

namespace AnnotatedLogic

theorem Graph.nodup_components (g : Graph) : g.components.Nodup := by
  have hnodes : (g.nodes.map Component.node).Nodup :=
    List.Pairwise.map _ (fun _ _ h heq => h (Component.node.inj heq)) g.nodes_nodup
  have hedges : (g.edges.map Component.edge).Nodup :=
    List.Pairwise.map _ (fun _ _ h heq => h (Component.edge.inj heq)) g.edges_nodup
  refine List.nodup_append.2 ⟨hnodes, hedges, ?_⟩
  intro c hc d hd
  obtain ⟨n, -, rfl⟩ := List.mem_map.1 hc
  obtain ⟨e, -, rfl⟩ := List.mem_map.1 hd
  exact Component.noConfusion

theorem Graph.node_mem_components {g : Graph} {n : Node} :
    Component.node n ∈ g.components ↔ n ∈ g.nodes := by
  simp [Graph.components]

theorem Graph.edge_mem_components {g : Graph} {e : Edge} :
    Component.edge e ∈ g.components ↔ e ∈ g.edges := by
  simp [Graph.components]

/-- An edge that is added comes last. -/
theorem Graph.addEdge_cases {g h : Graph} {e : Edge} (hadd : g.addEdge e = .ok h)
    (he : e ∉ g.edges) : h.nodes = g.nodes ∧ h.edges = g.edges ++ [e] := by
  unfold addEdge at hadd
  split at hadd
  · split at hadd
    · cases hadd
      unfold insertEdge
      rw [dif_neg he]
      exact ⟨rfl, rfl⟩
    · cases hadd
  · cases hadd

namespace Interpretation

/-! ## The view of an interpretation -/

theorem world?_putWorld (i : Interpretation) (c d : Component) (w : World) :
    (i.putWorld c w).world? d = if d = c then some w else i.world? d :=
  i.worlds.get?_put c d w

theorem bound?_putWorld (i : Interpretation) (c d : Component) (w : World) (label : Label) :
    (i.putWorld c w).bound? d label = if d = c then w.get? label else i.bound? d label := by
  unfold bound?
  rw [world?_putWorld]
  split <;> rfl

theorem bound?_of_world? {i : Interpretation} {c : Component} {w : World} (h : i.world? c = some w)
    (label : Label) : i.bound? c label = w.get? label := by
  unfold bound?
  rw [h]
  rfl

/-- Giving a component the world it has changes nothing. -/
theorem putWorld_self {i : Interpretation} {c : Component} {w : World}
    (h : i.world? c = some w) : i.putWorld c w = i := by
  unfold putWorld
  rw [Table.put_get?_self h]

theorem world?_reset (i : Interpretation) (c : Component) :
    i.reset.world? c = (i.world? c).map World.reset :=
  Table.get?_mapValues World.reset i.worlds c

/-- In a new interpretation nothing is known of any atom. -/
theorem bound?_ofGraph {graph : Graph} {labelling : Labelling} {c : Component} {label : Label}
    {b : Interval} (h : (ofGraph graph labelling).bound? c label = some b) : b = .unknown := by
  obtain ⟨w, hw, hlabel⟩ := Option.bind_eq_some_iff.1 h
  obtain ⟨d, -, heq⟩ := List.mem_map.1 (Table.mem_of_get?_ofList hw)
  cases heq
  rw [World.get?_ofLabels] at hlabel
  split at hlabel
  · exact (Option.some.inj hlabel).symm
  · cases hlabel

/-- Changes are logged one after the other, and nothing else happens. -/
theorem foldl_log (i : Interpretation) (c : Component) (changes : List Change) :
    changes.foldl (fun i change => i.log c change.label) i =
      { i with predicates := i.predicates.pushAll (changes.map fun change => (c, change.label)) } := by
  induction changes generalizing i with
  | nil => rfl
  | cons change changes ih =>
    rw [List.foldl_cons, ih]
    rfl

/-- An edge is there already, or it is new and gets a world that says nothing yet. -/
theorem addEdge_cases {i j : Interpretation} {e : Edge} (h : i.addEdge e = .ok j) :
    (e ∈ i.graph.edges ∧ j = i) ∨
      (e ∉ i.graph.edges ∧ ∃ g : Graph, g.nodes = i.graph.nodes ∧ g.edges = i.graph.edges ++ [e] ∧
        j = { i with graph := g }.putWorld (.edge e) (.ofLabels (i.labelling.forEdge e))) := by
  unfold addEdge Graph.hasEdge at h
  split at h
  · next he =>
    cases h
    exact .inl ⟨of_decide_eq_true he, rfl⟩
  · next he =>
    have he' : e ∉ i.graph.edges := fun hmem => he (decide_eq_true hmem)
    cases hadd : i.graph.addEdge e with
    | error error =>
      rw [hadd] at h
      cases h
    | ok g =>
      rw [hadd] at h
      cases h
      obtain ⟨hnodes, hedges⟩ := Graph.addEdge_cases hadd he'
      exact .inr ⟨he', g, hnodes, hedges, rfl⟩

/-! ## Worlds and components -/

/-- The components that have worlds are those of the graph, in their order. -/
def Fits (i : Interpretation) : Prop := i.worlds.keys = i.graph.components

theorem fits_ofGraph (graph : Graph) (labelling : Labelling) : (ofGraph graph labelling).Fits := by
  have hkeys : (graph.components.map fun c => (c, World.ofLabels (labelling.forComponent c))).map
      (·.1) = graph.components := by
    rw [List.map_map]
    exact List.map_id _
  have hnodup := graph.nodup_components
  rw [← hkeys] at hnodup
  exact (Table.keys_ofList hnodup).trans hkeys

theorem Fits.mem {i : Interpretation} (h : i.Fits) {c : Component} :
    (∃ w, i.world? c = some w) ↔ c ∈ i.graph.components := by
  rw [← Option.isSome_iff_exists, Option.isSome_iff_ne_none, ← h]
  exact not_iff_comm.1 (by rw [Table.get?_eq_none.symm]; exact Iff.rfl)

theorem Fits.putWorld {i : Interpretation} (h : i.Fits) {c : Component} {w : World}
    (hw : i.world? c = some w) (v : World) : (i.putWorld c v).Fits := by
  have hc : c ∈ i.worlds.keys := by
    rw [h]
    exact h.mem.1 ⟨w, hw⟩
  show (i.worlds.put c v).keys = i.graph.components
  rw [Table.keys_put, if_pos hc, h]

theorem Fits.addEdge {i j : Interpretation} (h : i.Fits) {e : Edge} (hadd : i.addEdge e = .ok j) :
    j.Fits := by
  rcases addEdge_cases hadd with ⟨-, rfl⟩ | ⟨he, g, hnodes, hedges, rfl⟩
  · exact h
  · have hnew : Component.edge e ∉ i.worlds.keys := by
      rw [h, Graph.edge_mem_components]
      exact he
    show (i.worlds.put (.edge e) _).keys = g.components
    rw [Table.keys_put, if_neg hnew, h]
    unfold Graph.components
    rw [hnodes, hedges, List.map_append, List.append_assoc]
    rfl

theorem Fits.reset {i : Interpretation} (h : i.Fits) : i.reset.Fits :=
  (Table.keys_mapValues World.reset i.worlds).trans h

/-- An edge that the graph does not have has no world either. -/
theorem Fits.world?_new {i : Interpretation} (h : i.Fits) {e : Edge} (he : e ∉ i.graph.edges) :
    i.world? (.edge e) = none := by
  have hnew : Component.edge e ∉ i.worlds.keys := by
    rw [h, Graph.edge_mem_components]
    exact he
  exact Table.get?_eq_none.2 hnew

/-! ## Assertions as edits -/

/-- A commit gives one component another world. -/
theorem commit_view (i : Interpretation) (config : Config) (a : Assertion) (v : World)
    (changes : List Change) (message : String) (conflict : Option Conflict) :
    (i.commit config a v changes message conflict).interpretation.graph = i.graph ∧
      ∀ c, (i.commit config a v changes message conflict).interpretation.world? c =
        if c = a.component then some v else i.world? c := by
  unfold commit
  rw [foldl_log]
  exact ⟨rfl, fun c => i.world?_putWorld a.component c v⟩

variable {P : Interval → Prop}

/-- The assertion edits the world of its component, logs the edits that are no resolution of a
contradiction, measures them, and traces all of them. -/
theorem assertOn_edits (hP : Interval.Closed P) (config : Config) (pairing : Pairing)
    {i : Interpretation} {a : Assertion} {w : World} (hi : i.world? a.component = some w)
    (hw : w.All P) (ha : P a.bound) :
    ∃ v changes message, World.Edits P w changes v ∧
      (i.assertOn config pairing a w).interpretation =
        (changes.filter (·.consistent)).foldl (fun i c => i.log a.component c.label)
          (i.putWorld a.component v) ∧
      (i.assertOn config pairing a w).outcome.changedAtoms = changes.length ∧
      (i.assertOn config pairing a w).outcome.movement = v.movement changes ∧
      (i.assertOn config pairing a w).entries =
        if config.traces a.source then changes.map (a.entry message) else [] := by
  have hidle : i = i.putWorld a.component w := (putWorld_self hi).symm
  have hforce := World.edits_freeze
    (World.edits_forceAll ha (hP.complement ha) w a.label (pairing.partners a.label) a.source.cause) a
  unfold assertOn
  dsimp only
  split
  · exact ⟨w, [], "", .refl, hidle, rfl, rfl, by simp⟩
  · split
    · exact ⟨_, _, "", hforce, rfl, rfl, rfl, rfl⟩
    · split
      · exact ⟨_, [], "", World.edits_freeze (World.Edits.refl.addLabel a.label) a, rfl, rfl, rfl, by simp⟩
      · next narrowed hjudge =>
        have hn : P narrowed := by
          obtain ⟨old, hpreview, -⟩ := World.judge_narrows hjudge
          obtain ⟨-, rfl, -, -⟩ := World.preview_changed hpreview
          exact hP.meet (hw.bound hP a.label) ha
        exact ⟨_, _, "", World.edits_freeze (World.edits_learnAll hn (hP.complement hn) w a.label
          (pairing.partners a.label) a.source.cause) a, rfl, rfl, rfl, rfl⟩
      · next clashing existing incoming hjudge =>
        split
        · exact ⟨w, [], "", .refl, hidle, rfl, rfl, by simp⟩
        · exact ⟨_, _, "", hforce, rfl, rfl, rfl, rfl⟩
        · exact ⟨_, _, _, World.edits_forgetAll hP.unknown w a.label (pairing.partners a.label)
            a.source.cause, rfl, rfl, rfl, rfl⟩

end Interpretation

end AnnotatedLogic
