import AnnotatedLogic.Proofs.Adjacency
/-!
# The parts of an index stay in step

Over any lawful adjacency structure an index answers as the plain lists of a graph do.

* `Graph.adjacent`: what a walk from a node comes to, read off the list of edges.
* `Graph.mem_edges_build`: the edges of an outline, turned around and doubled as it says.
* `Index.Tracks`: an index and a graph hold the same nodes and edges, and what the index stores
  beside them fits. `Tracks.insert` is the step, `Tracks.insertAll` and `tracks_build` the runs; an
  insertion that fails in one of them fails in the other one as well (`Tracks.addEdge_cases`).
* `Index.InStep`: what the five parts of an index say agrees.
* `Index.build_insertAll_inStep`: it does, however the index came about.
-/

namespace AnnotatedLogic

namespace Graph

/-! ## Graphs as lists -/

/-- What a walk from a node comes to, in the order of the edges. -/
def adjacent (g : Graph) (d : Direction) (n : Node) : List Node :=
  (g.edges.filter fun e => decide (d.near e.source e.target = n)).map fun e =>
    d.far e.source e.target

theorem adjacent_congr {g h : Graph} (hedges : h.edges = g.edges) (d : Direction) (n : Node) :
    h.adjacent d n = g.adjacent d n := by
  unfold adjacent
  rw [hedges]

theorem adjacent_concat {g h : Graph} {e : Edge} (hedges : h.edges = g.edges ++ [e])
    (d : Direction) (n : Node) :
    h.adjacent d n = g.adjacent d n ++
      if n = d.near e.source e.target then [d.far e.source e.target] else [] := by
  unfold adjacent
  rw [hedges, List.filter_append, List.map_append]
  by_cases hn : n = d.near e.source e.target
  · simp [hn]
  · simp [hn, Ne.symm hn]

theorem near_mem_nodes {g : Graph} {e : Edge} (he : e ∈ g.edges) (d : Direction) :
    d.near e.source e.target ∈ g.nodes := by
  cases d with
  | outgoing => exact (g.ends_mem e he).1
  | incoming => exact (g.ends_mem e he).2

theorem adjacent_of_not_mem {g : Graph} {n : Node} (hn : n ∉ g.nodes) (d : Direction) :
    g.adjacent d n = [] := by
  have hnone : (g.edges.filter fun e => decide (d.near e.source e.target = n)) = [] := by
    rw [List.filter_eq_nil_iff]
    intro e he hnear
    exact hn (of_decide_eq_true hnear ▸ near_mem_nodes he d)
  unfold adjacent
  rw [hnone, List.map_nil]

theorem addNode_of_mem {g : Graph} {n : Node} (h : n ∈ g.nodes) : g.addNode n = g := dif_pos h

theorem nodes_addNode {g : Graph} {n : Node} (h : n ∉ g.nodes) :
    (g.addNode n).nodes = g.nodes ++ [n] := by
  rw [addNode, dif_neg h]

theorem edges_addNode (g : Graph) (n : Node) : (g.addNode n).edges = g.edges := by
  unfold addNode
  split <;> rfl

/-- Joining is inserting the ends and then the edge, which cannot fail any more. -/
theorem join_eq (g : Graph) (e : Edge) :
    g.join e = [Insertion.node e.source, .node e.target, .edge e].foldl insert g := by
  have hs := mem_addNode_of_mem (mem_addNode_self g e.source) e.target
  have ht := mem_addNode_self (g.addNode e.source) e.target
  simp only [List.foldl_cons, List.foldl_nil, insert, addEdge, dif_pos hs, dif_pos ht]
  rfl

theorem mem_edges_join {g : Graph} {d e : Edge} : e ∈ (g.join d).edges ↔ e ∈ g.edges ∨ e = d := by
  have hedges : ((g.addNode d.source).addNode d.target).edges = g.edges := by
    rw [edges_addNode, edges_addNode]
  unfold join insertEdge
  split
  · next hd =>
    rw [hedges] at hd ⊢
    exact ⟨.inl, fun h => h.elim id fun heq => heq ▸ hd⟩
  · rw [← hedges]
    simp

theorem ends_mem_join (g : Graph) (e : Edge) :
    e.source ∈ (g.join e).nodes ∧ e.target ∈ (g.join e).nodes :=
  (g.join e).ends_mem e (mem_edges_join.2 (.inr rfl))

/-- The way back needs no new nodes. -/
theorem joinBoth_eq (directed : Bool) (g : Graph) (e : Edge) :
    g.joinBoth directed e =
      if directed || e.isLoop then g.join e else (g.join e).insert (.edge e.reversed) := by
  have hback : (g.join e).join e.reversed = (g.join e).insert (.edge e.reversed) := by
    obtain ⟨hs, ht⟩ := g.ends_mem_join e
    rw [join_eq]
    simp only [List.foldl_cons, List.foldl_nil]
    rw [insert, insert, addNode_of_mem (show e.reversed.source ∈ _ from ht),
      addNode_of_mem (show e.reversed.target ∈ _ from hs)]
  unfold joinBoth
  rw [hback]

theorem reversed_of_isLoop {e : Edge} (h : e.isLoop = true) : e.reversed = e := by
  obtain ⟨s, t⟩ := e
  obtain rfl : s = t := of_decide_eq_true h
  rfl

theorem mem_edges_joinBoth {directed : Bool} {g : Graph} {d e : Edge} :
    e ∈ (g.joinBoth directed d).edges ↔
      e ∈ g.edges ∨ e = d ∨ (directed = false ∧ e = d.reversed) := by
  unfold joinBoth
  cases directed with
  | true => simp [mem_edges_join]
  | false =>
    by_cases hloop : d.isLoop = true
    · simp [hloop, reversed_of_isLoop hloop, mem_edges_join]
    · simp [hloop, mem_edges_join, or_assoc]

theorem mem_edges_foldl_joinBoth {directed : Bool} (edges : List Edge) {g : Graph} {e : Edge} :
    e ∈ (edges.foldl (joinBoth directed) g).edges ↔
      e ∈ g.edges ∨ ∃ d ∈ edges, e = d ∨ (directed = false ∧ e = d.reversed) := by
  induction edges generalizing g with
  | nil => simp
  | cons d edges ih => rw [List.foldl_cons, ih, mem_edges_joinBoth]; simp [or_assoc]

theorem edges_foldl_addNode (nodes : List Node) (g : Graph) :
    (nodes.foldl addNode g).edges = g.edges := by
  induction nodes generalizing g with
  | nil => rfl
  | cons n nodes ih => rw [List.foldl_cons, ih, edges_addNode]

/-- The graph of an outline has the given edges, all turned around if so asked, and in an
undirected graph also the way back along each of them. -/
theorem mem_edges_build {nodes : List Node} {edges : List Edge} {directed reverse : Bool}
    {e : Edge} :
    e ∈ (build nodes edges directed reverse).edges ↔
      ∃ d ∈ if reverse then edges.map Edge.reversed else edges,
        e = d ∨ (directed = false ∧ e = d.reversed) := by
  unfold build
  simp only [mem_edges_foldl_joinBoth, edges_foldl_addNode]
  simp [empty]

namespace Index

variable {γ ι : Type} {A : Adjacency γ ι} {x : Index γ ι} {g : Graph}

/-! ## One insertion -/

/-- An index holds what a graph holds: the lists are the same, every node has a handle of its own,
and walks from a handle come to what the list of edges says, the last edge first. -/
structure Tracks (A : Adjacency γ ι) (x : Index γ ι) (g : Graph) : Prop where
  made : A.Made x.adjacency
  nodes_eq : x.nodes = g.nodes
  edges_eq : x.edges = g.edges
  hasNode_iff : ∀ n, x.hasNode n = true ↔ n ∈ g.nodes
  hasEdge_iff : ∀ e, x.hasEdge e = true ↔ e ∈ g.edges
  node?_eq : ∀ {n k}, x.handles.get? n = some k → A.node? x.adjacency k = some n
  neighbors_eq : ∀ {n k}, x.handles.get? n = some k → ∀ d,
    (A.neighbors x.adjacency k d).map (A.node? x.adjacency) = (g.adjacent d n).reverse.map some

theorem tracks_empty (A : Adjacency γ ι) : Tracks A (empty A) Graph.empty where
  made := .empty
  nodes_eq := rfl
  edges_eq := rfl
  hasNode_iff n := by simp [hasNode, empty, Graph.empty, Table.get?, Table.empty, Table.find?]
  hasEdge_iff e := by simp [hasEdge, empty, Graph.empty, Table.get?, Table.empty, Table.find?]
  node?_eq h := nomatch h
  neighbors_eq h := nomatch h

theorem Tracks.get?_of_mem (h : Tracks A x g) {n : Node} (hn : n ∈ g.nodes) :
    ∃ k, x.handles.get? n = some k :=
  Option.isSome_iff_exists.1 ((h.hasNode_iff n).2 hn)

theorem Tracks.get?_of_not_mem (h : Tracks A x g) {n : Node} (hn : n ∉ g.nodes) :
    x.handles.get? n = none :=
  Option.not_isSome_iff_eq_none.1 fun hsome => hn ((h.hasNode_iff n).1 hsome)

/-- Different nodes have different handles. -/
theorem Tracks.handle_inj (h : Tracks A x g) {m n : Node} {k : ι}
    (hm : x.handles.get? m = some k) (hn : x.handles.get? n = some k) : m = n :=
  Option.some.inj ((h.node?_eq hm).symm.trans (h.node?_eq hn))

/-- An index and a graph answer an insertion of an edge alike, and either nothing becomes of it in
both, or both get the edge at the end. -/
theorem Tracks.addEdge_cases (h : Tracks A x g) (e : Edge) :
    (addEdge A x e).1 = (g.addEdge e).map (fun _ => decide (e ∉ g.edges)) ∧
    ((addEdge A x e).2 = x ∧ g.insert (.edge e) = g ∨
      ∃ s t, x.handles.get? e.source = some s ∧ x.handles.get? e.target = some t ∧
        (addEdge A x e).2 = withEdge A x e s t ∧
        (g.insert (.edge e)).nodes = g.nodes ∧ (g.insert (.edge e)).edges = g.edges ++ [e]) := by
  have hknown := h.hasEdge_iff e
  unfold addEdge Graph.insert Graph.addEdge insertEdge handle
  by_cases he : e ∈ g.edges
  · obtain ⟨hs, ht⟩ := g.ends_mem e he
    simp [hknown, he, hs, ht, Except.map]
  by_cases hs : e.source ∈ g.nodes
  · obtain ⟨s, hs'⟩ := h.get?_of_mem hs
    by_cases ht : e.target ∈ g.nodes
    · obtain ⟨t, ht'⟩ := h.get?_of_mem ht
      simp [hknown, he, hs, ht, hs', ht', Except.map]
    · simp [hknown, he, hs, ht, hs', h.get?_of_not_mem ht, Except.map]
  · simp [hknown, he, hs, h.get?_of_not_mem hs, Except.map]

variable [DecidableEq ι]

/-- A new node has a handle that was not in use, so that no walk leads to it or starts from it. -/
theorem Tracks.insert_node (hA : A.Lawful) (h : Tracks A x g) (n : Node) :
    Tracks A (insert A x (.node n)) (g.insert (.node n)) := by
  change Tracks A (addNode A x n).2 (g.addNode n)
  by_cases hn : n ∈ g.nodes
  · rw [Graph.addNode_of_mem hn, addNode, if_pos ((h.hasNode_iff n).2 hn)]
    exact h
  rw [addNode, if_neg (mt (h.hasNode_iff n).1 hn)]
  have hedges := g.edges_addNode n
  refine
    { made := h.made.addNode n
      nodes_eq := ?nodes
      edges_eq := h.edges_eq.trans hedges.symm
      hasNode_iff := fun m => ?hasNode
      hasEdge_iff := fun e => by rw [hedges]; exact h.hasEdge_iff e
      node?_eq := fun {m k} hk => ?node
      neighbors_eq := fun {m k} hk d => ?neighbors }
  case nodes => rw [Graph.nodes_addNode hn, ← h.nodes_eq]
  case hasNode =>
    have hm := h.hasNode_iff m
    unfold hasNode at hm ⊢
    rw [Graph.nodes_addNode hn, Table.get?_put, List.mem_append, List.mem_singleton, ← hm]
    split <;> simp_all
  case node =>
    rw [Table.get?_put] at hk
    split at hk
    · next hm =>
      cases hk
      rw [hA.node?_addNode h.made, if_pos rfl, hm]
    · exact hA.node?_kept h.made (h.node?_eq hk) n
  case neighbors =>
    rw [Graph.adjacent_congr hedges, hA.neighbors_addNode h.made]
    rw [Table.get?_put] at hk
    split at hk
    · next hm =>
      cases hk
      rw [hm, hA.neighbors_of_none h.made (hA.node?_new h.made n), Graph.adjacent_of_not_mem hn]
      rfl
    · rw [← h.neighbors_eq hk]
      refine List.map_congr_left fun j hj => ?_
      -- A neighbour is a node of the graph and therefore stays what it is.
      have hj : A.node? x.adjacency j ∈ (g.adjacent d m).reverse.map some :=
        h.neighbors_eq hk d ▸ List.mem_map_of_mem hj
      obtain ⟨l, -, hl⟩ := List.mem_map.1 hj
      rw [← hl]
      exact hA.node?_kept h.made hl.symm n

/-- A new edge becomes the first of the walks from both its ends, and changes no others. -/
theorem Tracks.withEdge_of_new (hA : A.Lawful) (h : Tracks A x g) {k : Graph} {e : Edge} {s t : ι}
    (hs : x.handles.get? e.source = some s) (ht : x.handles.get? e.target = some t)
    (hnodes : k.nodes = g.nodes) (hedges : k.edges = g.edges ++ [e]) :
    Tracks A (withEdge A x e s t) k := by
  have hs' := h.node?_eq hs
  have ht' := h.node?_eq ht
  have hstored : ∀ {s t}, A.node? (A.addEdge x.adjacency s t) = A.node? x.adjacency :=
    funext fun _ => hA.node?_addEdge h.made ..
  have hnear : ∀ d : Direction,
      x.handles.get? (d.near e.source e.target) = some (d.near s t) := by
    rintro (_ | _) <;> assumption
  have hfar : ∀ d : Direction,
      A.node? x.adjacency (d.far s t) = some (d.far e.source e.target) := by
    rintro (_ | _) <;> assumption
  refine
    { made := h.made.addEdge (by simp [hs']) (by simp [ht'])
      nodes_eq := h.nodes_eq.trans hnodes.symm
      edges_eq := ?edges
      hasNode_iff := fun n => hnodes ▸ h.hasNode_iff n
      hasEdge_iff := fun d => ?hasEdge
      node?_eq := fun hk => hstored ▸ h.node?_eq hk
      neighbors_eq := fun {n j} hj d => ?neighbors }
  case edges => rw [hedges, ← h.edges_eq]; rfl
  case hasEdge =>
    have hd := h.hasEdge_iff d
    unfold hasEdge at hd ⊢
    rw [hedges, List.mem_append, List.mem_singleton, ← hd, withEdge, Table.get?_put]
    split <;> simp_all
  case neighbors =>
    -- Handles are told apart as nodes are, so both sides grow at the same node.
    have hsame : j = d.near s t ↔ n = d.near e.source e.target :=
      ⟨fun hjs => h.handle_inj hj (hjs ▸ hnear d),
        fun hn => Option.some.inj (hj.symm.trans (hn ▸ hnear d))⟩
    change (A.neighbors (A.addEdge x.adjacency s t) j d).map
      (A.node? (A.addEdge x.adjacency s t)) = _
    rw [hstored, hA.neighbors_addEdge h.made (by simp [hs']) (by simp [ht']),
      Graph.adjacent_concat hedges]
    by_cases hn : n = d.near e.source e.target
    · rw [if_pos (hsame.2 hn), if_pos hn, List.map_cons, h.neighbors_eq hj, hfar]
      simp
    · rw [if_neg (mt hsame.1 hn), if_neg hn, h.neighbors_eq hj, List.append_nil]

theorem Tracks.insert_edge (hA : A.Lawful) (h : Tracks A x g) (e : Edge) :
    Tracks A (insert A x (.edge e)) (g.insert (.edge e)) := by
  rcases (h.addEdge_cases e).2 with ⟨hindex, hgraph⟩ | ⟨s, t, hs, ht, hindex, hnodes, hedges⟩
  · rw [insert, hindex, hgraph]
    exact h
  · rw [insert, hindex]
    exact h.withEdge_of_new hA hs ht hnodes hedges

/-! ## Sequences of insertions -/

theorem Tracks.insert (hA : A.Lawful) (h : Tracks A x g) :
    ∀ step, Tracks A (insert A x step) (g.insert step)
  | .node n => h.insert_node hA n
  | .edge e => h.insert_edge hA e

theorem Tracks.insertAll (hA : A.Lawful) (h : Tracks A x g) (steps : List Insertion) :
    Tracks A (insertAll A x steps) (steps.foldl Graph.insert g) := by
  induction steps generalizing x g with
  | nil => exact h
  | cons step steps ih => exact ih (h.insert hA step)

theorem Tracks.joinBoth (hA : A.Lawful) (h : Tracks A x g) (directed : Bool) (e : Edge) :
    Tracks A (joinBoth A directed x e) (g.joinBoth directed e) := by
  have hjoin := h.insertAll hA [.node e.source, .node e.target, .edge e]
  rw [← Graph.join_eq] at hjoin
  rw [Graph.joinBoth_eq]
  unfold Index.joinBoth
  split
  · exact hjoin
  · exact hjoin.insert hA _

theorem Tracks.foldl_joinBoth (hA : A.Lawful) (h : Tracks A x g) (directed : Bool)
    (edges : List Edge) :
    Tracks A (edges.foldl (Index.joinBoth A directed) x)
      (edges.foldl (Graph.joinBoth directed) g) := by
  induction edges generalizing x g with
  | nil => exact h
  | cons e edges ih => exact ih (h.joinBoth hA directed e)

theorem tracks_build (hA : A.Lawful) (nodes : List Node) (edges : List Edge)
    (directed reverse : Bool) :
    Tracks A (build A nodes edges directed reverse) (Graph.build nodes edges directed reverse) := by
  have hnodes := (tracks_empty A).insertAll hA (nodes.map .node)
  rw [List.foldl_map] at hnodes
  exact hnodes.foldl_joinBoth hA directed _

/-! ## What the parts say -/

/-- The parts of an index agree: nothing is listed twice, what is looked up is what is listed, the
ends of edges are nodes, and the neighbours come in the order of the edges. -/
structure InStep (A : Adjacency γ ι) (x : Index γ ι) : Prop where
  nodes_nodup : x.nodes.Nodup
  edges_nodup : x.edges.Nodup
  hasNode_iff : ∀ n, x.hasNode n = true ↔ n ∈ x.nodes
  hasEdge_iff : ∀ e, x.hasEdge e = true ↔ e ∈ x.edges
  ends_mem : ∀ e ∈ x.edges, e.source ∈ x.nodes ∧ e.target ∈ x.nodes
  successors_eq : ∀ n, successors A x n =
    (x.edges.filter fun e => decide (e.source = n)).map (·.target)
  predecessors_eq : ∀ n, predecessors A x n =
    (x.edges.filter fun e => decide (e.target = n)).map (·.source)
  outEdges_eq : ∀ n, outEdges A x n = x.edges.filter fun e => decide (e.source = n)

omit [DecidableEq ι] in
theorem Tracks.adjacent_eq (h : Tracks A x g) (n : Node) (d : Direction) :
    adjacent A x n d = g.adjacent d n := by
  unfold Index.adjacent
  by_cases hn : n ∈ g.nodes
  · obtain ⟨k, hk⟩ := h.get?_of_mem hn
    have hwalk : (A.neighbors x.adjacency k d).filterMap (A.node? x.adjacency) =
        (g.adjacent d n).reverse :=
      calc (A.neighbors x.adjacency k d).filterMap (A.node? x.adjacency)
        _ = ((A.neighbors x.adjacency k d).map (A.node? x.adjacency)).filterMap id := by
          rw [List.filterMap_map]; rfl
        _ = ((g.adjacent d n).reverse.map some).filterMap id := by rw [h.neighbors_eq hk]
        _ = (g.adjacent d n).reverse := by simp
    simp only [hk, hwalk, List.reverse_reverse]
  · rw [h.get?_of_not_mem hn, Graph.adjacent_of_not_mem hn]

omit [DecidableEq ι] in
theorem Tracks.inStep (h : Tracks A x g) : InStep A x where
  nodes_nodup := h.nodes_eq ▸ g.nodes_nodup
  edges_nodup := h.edges_eq ▸ g.edges_nodup
  hasNode_iff n := by rw [h.hasNode_iff, h.nodes_eq]
  hasEdge_iff e := by rw [h.hasEdge_iff, h.edges_eq]
  ends_mem := by rw [h.edges_eq, h.nodes_eq]; exact g.ends_mem
  successors_eq n := by rw [h.edges_eq]; exact h.adjacent_eq n .outgoing
  predecessors_eq n := by rw [h.edges_eq]; exact h.adjacent_eq n .incoming
  outEdges_eq n := by
    rw [h.edges_eq]
    unfold outEdges successors
    rw [h.adjacent_eq, Graph.adjacent, List.map_map]
    refine (List.map_congr_left fun e he => ?_).trans (List.map_id _)
    have hsource : e.source = n := of_decide_eq_true (List.mem_filter.1 he).2
    cases e
    simp_all

/-- Whatever outline an index is built from, and whatever is inserted after that, with or without
success: its parts agree, and it lists what the plain graph lists. Right after the outline these
are the given edges, turned around if so asked, and in an undirected graph the ways back. -/
theorem build_insertAll_inStep (hA : A.Lawful) (nodes : List Node) (edges : List Edge)
    (directed reverse : Bool) (steps : List Insertion) :
    let built := build A nodes edges directed reverse
    let x := insertAll A built steps
    let g := steps.foldl Graph.insert (Graph.build nodes edges directed reverse)
    InStep A x ∧ x.nodes = g.nodes ∧ x.edges = g.edges ∧
      ∀ e, e ∈ built.edges ↔
        ∃ d ∈ if reverse then edges.map Edge.reversed else edges,
          e = d ∨ (directed = false ∧ e = d.reversed) := by
  intro built x g
  have hbuilt : Tracks A built (Graph.build nodes edges directed reverse) :=
    tracks_build hA nodes edges directed reverse
  have h : Tracks A x g := hbuilt.insertAll hA steps
  refine ⟨h.inStep, h.nodes_eq, h.edges_eq, fun e => ?_⟩
  rw [hbuilt.edges_eq]
  exact Graph.mem_edges_build

/-- An undirected outline with a loop and an edge given twice, and an edge that is refused until
its source is there. -/
theorem build_insertAll_inStep_refused :
    let a : Node := ⟨"a"⟩
    let b : Node := ⟨"b"⟩
    let c : Node := ⟨"c"⟩
    let built := build .placed [b] [⟨a, b⟩, ⟨a, a⟩, ⟨a, b⟩] false true
    let x := insertAll .placed built [.edge ⟨c, a⟩, .node c, .edge ⟨c, a⟩, .edge ⟨b, a⟩]
    Adjacency.placed.Lawful ∧ InStep .placed x ∧
      (addEdge .placed built ⟨c, a⟩).1 = .error (.unknownNode c) ∧
      x.edges = [⟨b, a⟩, ⟨a, b⟩, ⟨a, a⟩, ⟨c, a⟩] ∧ predecessors .placed x a = [b, a, c] :=
  ⟨Adjacency.placed_lawful,
    (build_insertAll_inStep Adjacency.placed_lawful _ _ _ _ _).1,
    rfl, by decide, by decide⟩

end Index

end Graph

end AnnotatedLogic
