import AnnotatedLogic.Proofs.Justified
import Mathlib.Data.List.Dedup
/-!
# Counting members

A threshold compares how many members count and how many of them qualify. No edge of a graph is listed twice,
so the surroundings of a component list everything once, but for the ends of an edge from a node to itself.
These are one node, and a clause counts it twice.

* `Graph.nodup_around`: what a clause is about is listed once, but for the ends of a loop.
* `Clause.CountsOnce`: the numbers that a threshold compares are numbers of different members.
* `Clause.Repeats`: the clause is about the ends of a loop, and the node counts.
* `counts_once_iff`: the second is all that can prevent the first. `loop_counted_twice` is a rule that
  applies because of it.
-/

namespace AnnotatedLogic

/-! ## What is listed once -/

namespace Graph

theorem nodup_outEdges (g : Graph) (n : Node) : (g.outEdges n).Nodup := g.edges_nodup.filter _

/-- Two edges from a node lead to different nodes. -/
theorem nodup_successors (g : Graph) (n : Node) : (g.successors n).Nodup := by
  refine List.Nodup.map_on (fun d hd e he heq => ?_) (g.nodup_outEdges n)
  have hd : d.source = n := of_decide_eq_true (List.mem_filter.1 hd).2
  have he : e.source = n := of_decide_eq_true (List.mem_filter.1 he).2
  obtain ⟨source, target⟩ := d
  obtain ⟨_, _⟩ := e
  simp_all

/-- What a clause is about is listed once, unless it is about the ends of a loop. -/
theorem nodup_around (g : Graph) {kind : ComponentKind} {c : Component}
    (h : ∀ n, ¬ (kind = .node ∧ c = .edge ⟨n, n⟩)) : (g.around kind c).Nodup := by
  have hedges (n : Node) : ((g.outEdges n).map Component.edge).Nodup :=
    (g.nodup_outEdges n).map fun _ _ => Component.edge.inj
  cases c with
  | node n =>
    cases kind with
    | node => exact (g.nodup_successors n).map fun _ _ => Component.node.inj
    | edge => exact hedges n
  | edge e =>
    cases kind with
    | node =>
      obtain ⟨source, target⟩ := e
      have hne : source ≠ target := by
        rintro rfl
        exact h source ⟨rfl, rfl⟩
      simp [around, hne]
    | edge => exact hedges e.target

end Graph

namespace Clause

variable {clause : Clause} {i : Interpretation} {c : Component} {n : Node}

theorem counted_sublist (clause : Clause) (i : Interpretation) (c : Component) :
    (clause.counted i c).Sublist (i.graph.around clause.kind c) := by
  unfold counted
  cases clause.threshold.subset with
  | total => exact .refl _
  | available => exact List.filter_sublist

/-! ## What is counted once -/

/-- No member is listed twice, so the numbers that the threshold compares are numbers of different
members. -/
structure CountsOnce (clause : Clause) (i : Interpretation) (c : Component) : Prop where
  counted : (clause.counted i c).Nodup
  found : (clause.found i c).Nodup
  population : (clause.counted i c).length = (clause.counted i c).dedup.length
  qualified : (clause.found i c).length = (clause.found i c).dedup.length

/-- The clause is about the ends of an edge from a node to itself, and the node counts. -/
structure Repeats (clause : Clause) (i : Interpretation) (c : Component) (n : Node) : Prop where
  kind : clause.kind = .node
  loop : c = .edge ⟨n, n⟩
  counts : .node n ∈ clause.counted i c

theorem countsOnce_of_nodup (h : (clause.counted i c).Nodup) : clause.CountsOnce i c := by
  have hfound : (clause.found i c).Nodup := h.filter _
  exact ⟨h, hfound, by rw [h.dedup], by rw [hfound.dedup]⟩

/-- The node is counted once for each end. -/
theorem Repeats.counted_eq (h : clause.Repeats i c n) :
    clause.counted i c = [.node n, .node n] := by
  obtain ⟨hkind, rfl, hcounts⟩ := h
  unfold counted at hcounts ⊢
  rw [hkind] at hcounts ⊢
  cases hsubset : clause.threshold.subset with
  | total => rfl
  | available =>
    rw [hsubset] at hcounts
    have hlisted := (List.mem_filter.1 hcounts).2
    simp only [Graph.around, List.filter_cons, hlisted, if_true, List.filter_nil]

theorem Repeats.found_eq (h : clause.Repeats i c n) :
    clause.found i c
      = if clause.Qualifies i (.node n) then [.node n, .node n] else [] := by
  unfold found
  rw [h.counted_eq]
  by_cases hn : clause.Qualifies i (.node n) <;> simp [hn]

/-- Unless the node of a loop counts, nothing is counted twice. -/
theorem nodup_counted (h : ∀ n, ¬ clause.Repeats i c n) : (clause.counted i c).Nodup := by
  by_cases hloop : ∃ n, clause.kind = .node ∧ c = .edge ⟨n, n⟩
  · obtain ⟨n, hkind, rfl⟩ := hloop
    have hnone : clause.counted i (.edge ⟨n, n⟩) = [] := by
      refine List.eq_nil_iff_forall_not_mem.2 fun m hm => ?_
      have hmember := (clause.counted_sublist i _).subset hm
      rw [hkind] at hmember
      obtain rfl : m = .node n := by simpa [Graph.around] using hmember
      exact h n ⟨hkind, rfl, hm⟩
    rw [hnone]
    exact .nil
  · exact (i.graph.nodup_around fun n hn => hloop ⟨n, hn⟩).sublist (clause.counted_sublist i c)

theorem countsOnce_iff : clause.CountsOnce i c ↔ ∀ n, ¬ clause.Repeats i c n := by
  refine ⟨fun h n hn => ?_, fun h => countsOnce_of_nodup (nodup_counted h)⟩
  have hnodup := h.counted
  rw [hn.counted_eq] at hnodup
  simp at hnodup

/-- A member that is found is listed twice just when it is the node of a loop. -/
theorem nodup_found_iff :
    (clause.found i c).Nodup ↔ ∀ n, clause.Repeats i c n → ¬ clause.Qualifies i (.node n) := by
  constructor
  · intro h n hn hqualifies
    rw [hn.found_eq, if_pos hqualifies] at h
    simp at h
  · intro h
    by_cases hrepeats : ∃ n, clause.Repeats i c n
    · obtain ⟨n, hn⟩ := hrepeats
      rw [hn.found_eq, if_neg (h n hn)]
      exact .nil
    · exact (nodup_counted (not_exists.1 hrepeats)).filter _

end Clause

namespace Rule

/-- Wherever a clause of a rule is evaluated, the threshold compares how many members count with how many of
them qualify. These are numbers of different members, and no member is listed twice, just when the clause
is not about the ends of a loop whose node counts. There the node is counted twice and, if it qualifies,
found twice. A grounding lists what is found, so it lists a member twice just there. -/
theorem counts_once_iff (r : Rule) (i : Interpretation) (config : Config) :
    (∀ c, ∀ clause ∈ r.clauses,
      ((clause.evaluate i (i.graph.surroundings c)).isSome = true ↔
        clause.threshold.isSatisfied (clause.counted i c).length (clause.found i c).length = true) ∧
      (clause.CountsOnce i c ↔ ∀ n, ¬ clause.Repeats i c n) ∧
      ∀ n, clause.Repeats i c n → clause.counted i c = [.node n, .node n] ∧
        clause.found i c = if clause.Qualifies i (.node n) then [.node n, .node n] else []) ∧
    (config.atomTrace = true → ∀ g ∈ r.ground i config,
      List.Forall₂ (fun clause support => support.components.Nodup ↔
        ∀ n, clause.Repeats i g.component n → ¬ clause.Qualifies i (.node n)) r.clauses g.support) := by
  refine ⟨fun c clause _ => ⟨Clause.isSome_evaluate_iff, Clause.countsOnce_iff,
    fun n hn => ⟨hn.counted_eq, hn.found_eq⟩⟩, fun htrace g hg => ?_⟩
  rw [ground_eq] at hg
  obtain ⟨c, -, hg⟩ := List.mem_filterMap.1 hg
  obtain ⟨rfl, -, hsupport⟩ := groundAt_view hg
  refine (hsupport htrace).imp fun clause support hlists => ?_
  rw [hlists.2]
  exact Clause.nodup_found_iff

/-- A loop and another edge, and a clause that asks for two certain ends. On the loop its one node is found
twice, and the grounding lists it twice. On the other edge the two ends are found once each. -/
theorem counts_once_iff_loop :
    let a : Node := ⟨"a"⟩
    let b : Node := ⟨"b"⟩
    let new : Work := ⟨.ofGraph (Graph.build [] [⟨a, a⟩, ⟨a, b⟩] true false) {}, #[], .nothing⟩
    let certain (n : Node) : Operation :=
      ⟨.standard, {},
        .assert ⟨.node n, ⟨"p"⟩, .certain, 0, 0, .fact, "f", false, false, .ignore, []⟩⟩
    let i := (new.operateAll [certain a, certain b]).interpretation
    let clause : Clause := ⟨.node, ⟨"p"⟩, .certain, .atLeast 2⟩
    let rule : Rule := { Rule.simple .edge "both" ⟨"q"⟩ with clauses := [clause] }
    let config := { Config.standard with atomTrace := true }
    (config.atomTrace = true ∧ clause ∈ rule.clauses ∧ clause.Repeats i (.edge ⟨a, a⟩) a) ∧
      (rule.ground i config).map (fun g => (g.component, g.support))
        = [(.edge ⟨a, a⟩, [.nodes [a, a]]), (.edge ⟨a, b⟩, [.nodes [a, b]])] ∧
      clause.found i (.edge ⟨a, a⟩) = [.node a, .node a] ∧
      (¬ clause.CountsOnce i (.edge ⟨a, a⟩) ∧ clause.CountsOnce i (.edge ⟨a, b⟩)) ∧
      ∀ g ∈ rule.ground i config, g.component = .edge ⟨a, a⟩ →
        ∀ support ∈ g.support, ¬ support.components.Nodup := by
  intro a b new certain i clause rule config
  obtain ⟨hcounts, hlists⟩ := rule.counts_once_iff i config
  have hclause : clause ∈ rule.clauses := List.mem_singleton.2 rfl
  have hrepeats : clause.Repeats i (.edge ⟨a, a⟩) a := ⟨rfl, rfl, by decide +kernel⟩
  have hqualifies : clause.Qualifies i (.node a) := by decide +kernel
  have hground : (rule.ground i config).map (fun g => (g.component, g.support))
      = [(.edge ⟨a, a⟩, [.nodes [a, a]]), (.edge ⟨a, b⟩, [.nodes [a, b]])] := by decide +kernel
  refine ⟨⟨rfl, hclause, hrepeats⟩, hground, ?_, ⟨?_, ?_⟩,
    fun g hg hloop support hmem hnodup => ?_⟩
  · rw [((hcounts _ clause hclause).2.2 a hrepeats).2, if_pos hqualifies]
  · exact fun h => (hcounts _ clause hclause).2.1.1 h a hrepeats
  · refine (hcounts _ clause hclause).2.1.2 fun n hn => ?_
    have hloop := hn.loop
    simp only [Component.edge.injEq, Edge.mk.injEq] at hloop
    exact absurd (hloop.1.trans hloop.2.symm) (by decide)
  · obtain ⟨only, rest, hlisted, hnone, hsupport⟩ := List.forall₂_cons_left_iff.1 (hlists rfl g hg)
    rw [hsupport, List.forall₂_nil_left_iff.1 hnone, List.mem_singleton] at hmem
    subst hmem
    exact hlisted.1 hnodup a (hloop ▸ hrepeats) hqualifies

end Rule

namespace Reasoner

/-- The edge has a single node, and a rule that asks for two certain ends applies to it. Were the node
counted once, the threshold would not be met. -/
theorem loop_counted_twice :
    let a : Node := ⟨"A"⟩
    let clause : Clause := ⟨.node, ⟨"p"⟩, .certain, .atLeast 2⟩
    let rule : Rule := { Rule.simple .edge "both" ⟨"q"⟩ with clauses := [clause], delay := 0 }
    let config := { Config.standard with timesteps := 0 }
    ∃ new, create (Graph.empty.join ⟨a, a⟩) {} config = .ok new ∧
      let r := (new.calls
        [.addRule rule, .addFact ⟨"f", .node a, ⟨"p"⟩, .certain, 0, 0, false, false⟩, .reason]).1
      let i := r.interpretation
      ¬ (i.graph.around clause.kind (.edge ⟨a, a⟩)).Nodup ∧
        clause.counted i (.edge ⟨a, a⟩) = [.node a, .node a] ∧
        clause.found i (.edge ⟨a, a⟩) = [.node a, .node a] ∧
        clause.threshold.isSatisfied 1 1 = false ∧
        (rule.ground i { config with atomTrace := true }).map (·.support) = [[.nodes [a, a]]] ∧
        i.satisfies (.edge ⟨a, a⟩) ⟨"q"⟩ .certain = true := by
  intro a clause rule config
  refine ⟨_, rfl, ?_⟩
  decide +kernel

end Reasoner

end AnnotatedLogic
