import AnnotatedLogic.Graph.Index
/-!
# What an adjacency structure owes its user

* `Adjacency.Made`: what can come to be stored when nodes are added, and edges between handles that
  have been handed out.
* `Adjacency.Lawful`: a handle stays with its node, a new one was not in use, and a walk from a
  handle goes through its edges from the last one back to the first.
* `Adjacency.placed_lawful`: places in a list make such a structure.
-/

namespace AnnotatedLogic

namespace Adjacency

variable {γ ι : Type}

/-- What additions to an empty structure lead to. -/
inductive Made (A : Adjacency γ ι) : γ → Prop
  | empty : Made A A.empty
  | addNode {g : γ} (h : Made A g) (n : Node) : Made A (A.addNode g n).2
  | addEdge {g : γ} {s t : ι} (h : Made A g) (hs : (A.node? g s).isSome)
      (ht : (A.node? g t).isSome) : Made A (A.addEdge g s t)

/-- What is relied on in an adjacency structure. -/
structure Lawful [DecidableEq ι] (A : Adjacency γ ι) : Prop where
  node?_new : ∀ {g}, A.Made g → ∀ n, A.node? g (A.addNode g n).1 = none
  node?_addNode : ∀ {g}, A.Made g → ∀ n k,
    A.node? (A.addNode g n).2 k = if k = (A.addNode g n).1 then some n else A.node? g k
  node?_addEdge : ∀ {g}, A.Made g → ∀ s t k, A.node? (A.addEdge g s t) k = A.node? g k
  neighbors_of_none : ∀ {g}, A.Made g → ∀ {k}, A.node? g k = none → ∀ d, A.neighbors g k d = []
  neighbors_addNode : ∀ {g}, A.Made g → ∀ n k d,
    A.neighbors (A.addNode g n).2 k d = A.neighbors g k d
  neighbors_addEdge : ∀ {g}, A.Made g → ∀ {s t}, (A.node? g s).isSome → (A.node? g t).isSome →
    ∀ k d, A.neighbors (A.addEdge g s t) k d =
      if k = d.near s t then d.far s t :: A.neighbors g k d else A.neighbors g k d

section
variable [DecidableEq ι] {A : Adjacency γ ι}

/-- A node that is added takes no handle away. -/
theorem Lawful.node?_kept (hA : A.Lawful) {g : γ} (hg : A.Made g) {k : ι} {m : Node}
    (h : A.node? g k = some m) (n : Node) : A.node? (A.addNode g n).2 k = some m := by
  have hne : k ≠ (A.addNode g n).1 := by
    rintro rfl
    rw [hA.node?_new hg] at h
    cases h
  rw [hA.node?_addNode hg, if_neg hne, h]

end

/-- Pairs of places are about nodes that are there. -/
theorem Made.pairs_lt {g : Placed} (h : placed.Made g) :
    ∀ p ∈ g.pairs, ∀ d : Direction, d.near p.1 p.2 < g.nodes.length := by
  induction h with
  | empty => simp [placed]
  | addNode _ n ih =>
    intro p hp d
    have := ih p hp d
    simp only [placed, List.length_append, List.length_singleton]
    omega
  | addEdge _ hs ht ih =>
    intro p hp d
    rcases List.mem_cons.1 hp with rfl | hp
    · cases d with
      | outgoing => simpa [placed] using hs
      | incoming => simpa [placed] using ht
    · exact ih p hp d

/-- Places in a list are handles as they should be. -/
theorem placed_lawful : placed.Lawful where
  node?_new _ n := by simp [placed]
  node?_addNode {g} _ n k := by
    change (g.nodes ++ [n])[k]? = if k = g.nodes.length then some n else g.nodes[k]?
    by_cases h : k = g.nodes.length
    · rw [if_pos h, h, List.getElem?_concat_length]
    · rw [if_neg h]
      rcases Nat.lt_or_ge k g.nodes.length with hk | hk
      · rw [List.getElem?_append_left hk]
      · rw [List.getElem?_eq_none hk, List.getElem?_eq_none (by simp; omega)]
  node?_addEdge _ s t k := rfl
  neighbors_of_none {g} hg {k} hk d := by
    have hout : g.nodes.length ≤ k := by simpa [placed] using hk
    have hnone : (g.pairs.filter fun p => d.near p.1 p.2 = k) = [] := by
      rw [List.filter_eq_nil_iff]
      intro p hp
      have := hg.pairs_lt p hp d
      simp only [decide_eq_true_eq]
      omega
    simp only [placed, hnone, List.map_nil]
  neighbors_addNode _ n k d := rfl
  neighbors_addEdge {g} _ {s t} _ _ k d := by
    simp only [placed, List.filter_cons, decide_eq_true_eq, eq_comm (a := k)]
    split <;> rfl

end Adjacency

end AnnotatedLogic
