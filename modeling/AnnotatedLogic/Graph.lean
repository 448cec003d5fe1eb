import AnnotatedLogic.Error
/-!
# Graphs

A graph lists its nodes and its directed edges in the order in which they were added. No node or
edge is listed twice, and the ends of every edge are nodes.

* `addNode`, `addEdge`: what is there already is not added again. An edge to a node that is not
  there is an error.
* `successors`, `predecessors`, `outEdges`: what is next to a node, in the order of the edges.
* `build`: the graph of a list of nodes and a list of edges. An edge brings its ends along; edges
  may be turned around, and in an undirected graph every edge goes both ways.
-/

namespace AnnotatedLogic

/-- Nodes and directed edges, in the order in which they were added. -/
structure Graph where
  nodes : List Node
  edges : List Edge
  nodes_nodup : nodes.Nodup
  edges_nodup : edges.Nodup
  ends_mem : ∀ e ∈ edges, e.source ∈ nodes ∧ e.target ∈ nodes

namespace Graph

/-- No node and no edge. -/
def empty : Graph where
  nodes := []
  edges := []
  nodes_nodup := List.nodup_nil
  edges_nodup := List.nodup_nil
  ends_mem := fun _ h => absurd h List.not_mem_nil

instance : Inhabited Graph := ⟨empty⟩

theorem ext_lists {g h : Graph} (hn : g.nodes = h.nodes) (he : g.edges = h.edges) : g = h := by
  cases g; cases h; simp_all

instance : DecidableEq Graph := fun g h =>
  if hg : g.nodes = h.nodes ∧ g.edges = h.edges then isTrue (ext_lists hg.1 hg.2)
  else isFalse fun e => hg (e ▸ ⟨rfl, rfl⟩)

/-- Whether the graph has a node. -/
def hasNode (g : Graph) (n : Node) : Bool := decide (n ∈ g.nodes)

/-- Whether the graph has an edge. -/
def hasEdge (g : Graph) (e : Edge) : Bool := decide (e ∈ g.edges)

/-- The components of the graph: its nodes, then its edges. -/
def components (g : Graph) : List Component :=
  g.nodes.map .node ++ g.edges.map .edge

private theorem nodup_append_singleton {α : Type} {xs : List α} {x : α} (h : xs.Nodup)
    (hx : x ∉ xs) : (xs ++ [x]).Nodup :=
  List.nodup_append.2 ⟨h, by simp, fun a ha b hb hab => by simp_all⟩

/-- Adds a node at the end, unless it is there. -/
def addNode (g : Graph) (n : Node) : Graph :=
  if h : n ∈ g.nodes then g
  else
    { g with
      nodes := g.nodes ++ [n]
      nodes_nodup := nodup_append_singleton g.nodes_nodup h
      ends_mem := fun e he =>
        ⟨List.mem_append_left _ (g.ends_mem e he).1, List.mem_append_left _ (g.ends_mem e he).2⟩ }

theorem mem_addNode_self (g : Graph) (n : Node) : n ∈ (g.addNode n).nodes := by
  unfold addNode
  split
  · assumption
  · simp

theorem mem_addNode_of_mem {g : Graph} {m : Node} (h : m ∈ g.nodes) (n : Node) :
    m ∈ (g.addNode n).nodes := by
  unfold addNode
  split
  · exact h
  · exact List.mem_append_left _ h

/-- Adds an edge between nodes of the graph at the end, unless it is there. -/
def insertEdge (g : Graph) (e : Edge) (hs : e.source ∈ g.nodes) (ht : e.target ∈ g.nodes) :
    Graph :=
  if h : e ∈ g.edges then g
  else
    { g with
      edges := g.edges ++ [e]
      edges_nodup := nodup_append_singleton g.edges_nodup h
      ends_mem := fun d hd => by
        rcases List.mem_append.1 hd with hd | hd
        · exact g.ends_mem d hd
        · rw [List.mem_singleton.1 hd]
          exact ⟨hs, ht⟩ }

/-- Adds an edge. Its ends have to be nodes of the graph; the source is looked at first. -/
def addEdge (g : Graph) (e : Edge) : Except Error Graph :=
  if hs : e.source ∈ g.nodes then
    if ht : e.target ∈ g.nodes then .ok (g.insertEdge e hs ht)
    else .error (.unknownNode e.target)
  else .error (.unknownNode e.source)

/-- Adds an edge together with its ends. -/
def join (g : Graph) (e : Edge) : Graph :=
  ((g.addNode e.source).addNode e.target).insertEdge e
    (mem_addNode_of_mem (mem_addNode_self g e.source) e.target)
    (mem_addNode_self _ e.target)

/-- The edges that leave a node. -/
def outEdges (g : Graph) (n : Node) : List Edge :=
  g.edges.filter fun e => decide (e.source = n)

/-- The nodes that a node has edges to. -/
def successors (g : Graph) (n : Node) : List Node :=
  (g.outEdges n).map (·.target)

/-- The nodes that have edges to a node. -/
def predecessors (g : Graph) (n : Node) : List Node :=
  (g.edges.filter fun e => decide (e.target = n)).map (·.source)

/-- Adds an edge of an outline. In an undirected graph the edge back is added after it, unless the
edge is a loop. -/
def joinBoth (directed : Bool) (g : Graph) (e : Edge) : Graph :=
  if directed || e.isLoop then g.join e else (g.join e).join e.reversed

/-- The graph of a list of nodes and a list of edges. -/
def build (nodes : List Node) (edges : List Edge) (directed reverse : Bool) : Graph :=
  let turned := if reverse then edges.map Edge.reversed else edges
  turned.foldl (joinBoth directed) (nodes.foldl addNode empty)

end Graph

end AnnotatedLogic
