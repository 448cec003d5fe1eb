import AnnotatedLogic.Graph
import AnnotatedLogic.Table
/-!
# Indexed graphs

The graph as it is stored for fast answers: the lists of nodes and edges, and beside them what
finds a node by its name, what tells whether an edge is there, and an adjacency structure that
walks from a node to its neighbours. The five parts say the same thing in different ways, and
every insertion has to keep them in step.

* `Adjacency`: the structure that the neighbours are read from. It hands out a handle for every
  node and knows nothing of names. Everything here is done with any such structure.
* `Adjacency.placed`: a structure of this kind, with places in a list as handles.
* `Index.addNode`, `Index.addEdge`: what is there already is not added again. An edge to a node
  that is not there is an error, and the index stays what it was.
* `Index.build`, `Index.insertAll`: the index of an outline, and insertions after that.
-/

namespace AnnotatedLogic

/-- The side from which a node is left: along its edges, or against the edges that enter it. -/
inductive Direction where
  | outgoing
  | incoming
deriving DecidableEq

namespace Direction

variable {α : Type}

/-- The end of an edge that a walk starts from. -/
def near : Direction → α → α → α
  | outgoing, source, _ => source
  | incoming, _, target => target

/-- The end of an edge that a walk comes to. -/
def far : Direction → α → α → α
  | outgoing, _, target => target
  | incoming, source, _ => source

@[simp] theorem near_outgoing (s t : α) : outgoing.near s t = s := rfl

@[simp] theorem near_incoming (s t : α) : incoming.near s t = t := rfl

@[simp] theorem far_outgoing (s t : α) : outgoing.far s t = t := rfl

@[simp] theorem far_incoming (s t : α) : incoming.far s t = s := rfl

end Direction

/-- How nodes and the edges between them are stored. `γ` is what is stored, and `ι` are the handles
by which nodes are known in it. -/
structure Adjacency (γ ι : Type) where
  empty : γ
  /-- Stores a node and hands out its handle. -/
  addNode : γ → Node → ι × γ
  /-- Stores an edge from the first handle to the second. -/
  addEdge : γ → ι → ι → γ
  /-- What a walk from a handle comes to. -/
  neighbors : γ → ι → Direction → List ι
  /-- The node of a handle. -/
  node? : γ → ι → Option Node

/-- Nodes and pairs of places, the pair that was added last first. -/
structure Placed where
  nodes : List Node
  pairs : List (Nat × Nat)
deriving DecidableEq

/-- The handle of a node is its place, and the pairs are searched for neighbours. -/
def Adjacency.placed : Adjacency Placed Nat where
  empty := ⟨[], []⟩
  addNode g n := (g.nodes.length, ⟨g.nodes ++ [n], g.pairs⟩)
  addEdge g s t := ⟨g.nodes, (s, t) :: g.pairs⟩
  neighbors g k d := (g.pairs.filter fun p => d.near p.1 p.2 = k).map fun p => d.far p.1 p.2
  node? g k := g.nodes[k]?

namespace Graph

/-- One call that adds something to a graph. -/
inductive Insertion where
  | node (n : Node)
  | edge (e : Edge)
deriving DecidableEq

/-- The graph after an insertion. One that fails leaves the graph as it is. -/
def insert (g : Graph) : Insertion → Graph
  | .node n => g.addNode n
  | .edge e =>
    match g.addEdge e with
    | .ok h => h
    | .error _ => g

/-- A graph with everything that is needed to look things up in it. -/
structure Index (γ ι : Type) where
  adjacency : γ
  /-- The handles of the nodes. -/
  handles : Table Node ι
  nodes : List Node
  edges : List Edge
  /-- The edges that are there. -/
  members : Table Edge Unit

namespace Index

variable {γ ι : Type}

/-- Whether there is a node. -/
def hasNode (x : Index γ ι) (n : Node) : Bool := (x.handles.get? n).isSome

/-- Whether there is an edge. -/
def hasEdge (x : Index γ ι) (e : Edge) : Bool := (x.members.get? e).isSome

/-- The handle of a node. -/
def handle (x : Index γ ι) (n : Node) : Except Error ι :=
  match x.handles.get? n with
  | some k => .ok k
  | none => .error (.unknownNode n)

variable (A : Adjacency γ ι)

/-- No node and no edge. -/
def empty : Index γ ι := ⟨A.empty, .empty, [], [], .empty⟩

/-- Adds a node, unless it is there, and says whether it was added. -/
def addNode (x : Index γ ι) (n : Node) : Bool × Index γ ι :=
  if x.hasNode n then (false, x)
  else
    let stored := A.addNode x.adjacency n
    (true,
      { x with
        adjacency := stored.2
        handles := x.handles.put n stored.1
        nodes := x.nodes ++ [n] })

/-- The index with an edge more, from one handle to another. -/
def withEdge (x : Index γ ι) (e : Edge) (s t : ι) : Index γ ι :=
  { x with
    adjacency := A.addEdge x.adjacency s t
    members := x.members.put e ()
    edges := x.edges ++ [e] }

/-- Adds an edge, unless it is there, and says whether it was added. Its ends have to be nodes; the
source is looked up first. -/
def addEdge (x : Index γ ι) (e : Edge) : Except Error Bool × Index γ ι :=
  if x.hasEdge e then (.ok false, x)
  else
    match x.handle e.source with
    | .error error => (.error error, x)
    | .ok s =>
      match x.handle e.target with
      | .error error => (.error error, x)
      | .ok t => (.ok true, withEdge A x e s t)

/-- The nodes next to a node. The walk begins with the edge that was added last. -/
def adjacent (x : Index γ ι) (n : Node) (d : Direction) : List Node :=
  match x.handles.get? n with
  | none => []
  | some k => ((A.neighbors x.adjacency k d).filterMap (A.node? x.adjacency)).reverse

/-- The nodes that a node has edges to. -/
def successors (x : Index γ ι) (n : Node) : List Node := adjacent A x n .outgoing

/-- The nodes that have edges to a node. -/
def predecessors (x : Index γ ι) (n : Node) : List Node := adjacent A x n .incoming

/-- The edges that leave a node. -/
def outEdges (x : Index γ ι) (n : Node) : List Edge :=
  (successors A x n).map fun target => ⟨n, target⟩

/-- The index after an insertion. -/
def insert (x : Index γ ι) : Insertion → Index γ ι
  | .node n => (addNode A x n).2
  | .edge e => (addEdge A x e).2

/-- The index after a sequence of insertions. -/
def insertAll (x : Index γ ι) (steps : List Insertion) : Index γ ι :=
  steps.foldl (insert A) x

/-- Adds an edge of an outline together with its ends and, in an undirected graph, the edge back,
unless the edge is a loop. -/
def joinBoth (directed : Bool) (x : Index γ ι) (e : Edge) : Index γ ι :=
  let joined := insertAll A x [.node e.source, .node e.target, .edge e]
  if directed || e.isLoop then joined else insert A joined (.edge e.reversed)

/-- The index of a list of nodes and a list of edges. -/
def build (nodes : List Node) (edges : List Edge) (directed reverse : Bool) : Index γ ι :=
  let turned := if reverse then edges.map Edge.reversed else edges
  turned.foldl (joinBoth A directed) (insertAll A (empty A) (nodes.map .node))

end Index

end Graph

end AnnotatedLogic
