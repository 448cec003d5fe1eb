import AnnotatedLogic.Proofs.Answers
import AnnotatedLogic.Proofs.Arising
import AnnotatedLogic.Proofs.Below
/-!
# Where a rule applies, and what for

Grounding goes through the clauses of a rule one after the other and gives up at the first that fails. What
comes of it can be said without the order: a rule applies where the component meets the criteria, every
clause finds enough members and, if the rule is about new edges, there is one to add.

* `Graph.around`, `Clause.counted`, `Clause.found`: the members that a clause is about, those that count, and
  those of them that qualify. `Clause.evaluate_view` says that the evaluation finds these.
* `Rule.Adds`: the edges that a rule adds at a component.
* `Rule.Applicable`: the condition. `Rule.exists_groundAt_iff` says that it is exact.
* `ground_justified`: the groundings of a rule are where it applies, in the order of the graph, and record
  what they are based on.
-/

namespace AnnotatedLogic

/-! ## The members of a clause -/

/-- The components of one kind that a clause is about: the nodes that a node has edges to and the edges to
them; the two ends of an edge and the edges that leave its target. -/
def Graph.around (g : Graph) (kind : ComponentKind) : Component → List Component
  | .node n =>
    match kind with
    | .node => (g.successors n).map .node
    | .edge => (g.outEdges n).map .edge
  | .edge e =>
    match kind with
    | .node => [.node e.source, .node e.target]
    | .edge => (g.outEdges e.target).map .edge

theorem Graph.around_node (g : Graph) (c : Component) :
    g.around .node c = (g.surroundings c).nodes.map .node := by
  cases c <;> rfl

theorem Graph.around_edge (g : Graph) (c : Component) :
    g.around .edge c = (g.surroundings c).edges.map .edge := by
  cases c <;> rfl

/-- What the members of a support are. -/
def Support.kind : Support → ComponentKind
  | nodes _ => .node
  | edges _ => .edge

theorem Graph.kind_of_mem_around {g : Graph} {kind : ComponentKind} {c m : Component}
    (h : m ∈ g.around kind c) : m.kind = kind := by
  cases kind with
  | node =>
    rw [around_node] at h
    obtain ⟨n, -, rfl⟩ := List.mem_map.1 h
    rfl
  | edge =>
    rw [around_edge] at h
    obtain ⟨e, -, rfl⟩ := List.mem_map.1 h
    rfl

theorem Support.mem_nodeList_iff {s : Support} {n : Node} :
    n ∈ s.nodeList ↔ .node n ∈ s.components := by
  cases s <;> simp [nodeList, components]

namespace Clause

variable {clause : Clause} {i : Interpretation} {c m : Component}

/-- A member qualifies: it has the label, and its interval lies within the bound. -/
def Qualifies (clause : Clause) (i : Interpretation) (m : Component) : Prop :=
  ∃ v, i.bound? m clause.label = some v ∧ clause.bound.Contains v

theorem isSome_qualifying?_iff :
    (clause.qualifying? i m).isSome = true ↔ clause.Qualifies i m := by
  unfold qualifying? Qualifies
  cases i.bound? m clause.label with
  | none => simp
  | some v => by_cases hv : clause.bound.Contains v <;> simp [Option.filter, hv]

instance (clause : Clause) (i : Interpretation) (m : Component) : Decidable (clause.Qualifies i m) :=
  decidable_of_iff _ isSome_qualifying?_iff

/-- The members that count: all that the clause is about or, of these, those that have changed for the label
since the last reset. -/
def counted (clause : Clause) (i : Interpretation) (c : Component) : List Component :=
  match clause.threshold.subset with
  | .total => i.graph.around clause.kind c
  | .available => (i.graph.around clause.kind c).filter fun m => i.isAvailable m clause.label

/-- The members that count and qualify. -/
def found (clause : Clause) (i : Interpretation) (c : Component) : List Component :=
  (clause.counted i c).filter fun m => decide (clause.Qualifies i m)

/-- As many of the members that count qualify as the threshold asks for. -/
def Met (clause : Clause) (i : Interpretation) (c : Component) : Prop :=
  clause.threshold.isSatisfied (clause.counted i c).length (clause.found i c).length = true

instance (clause : Clause) (i : Interpretation) (c : Component) : Decidable (clause.Met i c) :=
  inferInstanceAs (Decidable (_ = _))

/-- Of the available members, those count that the log of changes lists for the label. -/
theorem counted_available (hi : i.Arises) (hsubset : clause.threshold.subset = .available)
    (c : Component) :
    clause.counted i c = (i.graph.around clause.kind c).filter fun m =>
      decide (m ∈ i.changed clause.kind clause.label) := by
  unfold counted
  rw [hsubset]
  refine List.filter_congr fun m hm => ?_
  rw [Bool.eq_iff_iff, decide_eq_true_iff, Interpretation.isAvailable_iff hi.inStep,
    Graph.kind_of_mem_around hm]

variable {α : Type} {component : α → Component} {members : List α}

/-- The population of a clause is what counts. -/
theorem map_population (hmembers : i.graph.around clause.kind c = members.map component) :
    (clause.population i component members).map component = clause.counted i c := by
  unfold population counted
  rw [hmembers]
  cases clause.threshold.subset with
  | total => rfl
  | available =>
    dsimp only
    rw [List.filter_map]
    rfl

/-- What a clause selects are the members that it finds, if the threshold is met. -/
theorem map_select (hmembers : i.graph.around clause.kind c = members.map component) :
    (clause.select i component members).map (fun selected => selected.1.map component)
      = if clause.Met i c then some (clause.found i c) else none := by
  have hcounted := map_population hmembers
  have hqualifies : (fun m : α => (clause.qualifying? i (component m)).isSome)
      = (fun m => decide (clause.Qualifies i m)) ∘ component := by
    funext m
    rw [Bool.eq_iff_iff, isSome_qualifying?_iff, Function.comp_apply, decide_eq_true_iff]
  have hfound : (((clause.population i component members).filterMap fun m =>
      (clause.qualifying? i (component m)).map (m, ·)).map (·.1)).map component
        = clause.found i c := by
    rw [map_fst_found, hqualifies, ← List.filter_map, hcounted]
    rfl
  have hcountedLength : (clause.population i component members).length
      = (clause.counted i c).length := by rw [← hcounted, List.length_map]
  have hfoundLength : ((clause.population i component members).filterMap fun m =>
      (clause.qualifying? i (component m)).map (m, ·)).length = (clause.found i c).length := by
    rw [← hfound, List.length_map, List.length_map]
  unfold select
  dsimp only
  rw [hcountedLength, hfoundLength]
  by_cases hmet : clause.Met i c
  · rw [if_pos hmet]
    unfold Met at hmet
    rw [if_pos hmet, Option.map_some, hfound]
  · rw [if_neg hmet]
    unfold Met at hmet
    rw [if_neg hmet]
    rfl

/-- The evaluation of a clause finds the members that qualify, of the kind that the clause is about, if the
threshold is met. -/
theorem evaluate_view (clause : Clause) (i : Interpretation) (c : Component) :
    (clause.evaluate i (i.graph.surroundings c)).map (fun f => (f.support.kind, f.support.components))
      = if clause.Met i c then some (clause.kind, clause.found i c) else none := by
  have hpair {o : Option (List Component)} (kind : ComponentKind)
      (h : o = if clause.Met i c then some (clause.found i c) else none) :
      o.map (fun xs => (kind, xs)) = if clause.Met i c then some (kind, clause.found i c) else none := by
    rw [h]
    split <;> rfl
  unfold evaluate
  cases hkind : clause.kind with
  | node =>
    dsimp only
    rw [Option.map_map, ← hpair .node (map_select (hkind ▸ i.graph.around_node c)),
      Option.map_map]
    rfl
  | edge =>
    dsimp only
    rw [Option.map_map, ← hpair .edge (map_select (hkind ▸ i.graph.around_edge c)),
      Option.map_map]
    rfl

theorem isSome_evaluate_iff :
    (clause.evaluate i (i.graph.surroundings c)).isSome = true ↔ clause.Met i c := by
  rw [← Option.isSome_map (f := fun f : Finding => (f.support.kind, f.support.components)),
    clause.evaluate_view i c]
  split <;> simp [*]

/-- The support of a finding lists the members that are found. -/
theorem support_of_evaluate {finding : Finding}
    (h : clause.evaluate i (i.graph.surroundings c) = some finding) :
    finding.support.kind = clause.kind ∧ finding.support.components = clause.found i c := by
  have hview := clause.evaluate_view i c
  rw [h, Option.map_some] at hview
  split at hview
  · exact Prod.mk.inj (Option.some.inj hview)
  · cases hview

end Clause

/-- All clauses find something, each for itself. -/
theorem forall₂_of_evaluateAll {i : Interpretation} {s : Surroundings} {clauses : List Clause}
    {findings : List Finding} (h : evaluateAll i s clauses = some findings) :
    List.Forall₂ (fun clause finding => clause.evaluate i s = some finding) clauses findings := by
  induction clauses generalizing findings with
  | nil =>
    cases h
    exact .nil
  | cons clause clauses ih =>
    rw [evaluateAll] at h
    cases hfirst : clause.evaluate i s with
    | none =>
      rw [hfirst] at h
      cases h
    | some finding =>
      rw [hfirst] at h
      obtain ⟨others, hothers, rfl⟩ := Option.map_eq_some_iff.1 h
      exact .cons hfirst (ih hothers)

/-- What is found at a place is what the clause there finds. -/
theorem getElem?_evaluateAll {i : Interpretation} {s : Surroundings} {clauses : List Clause}
    {findings : List Finding} (h : evaluateAll i s clauses = some findings) (index : Nat) :
    findings[index]? = clauses[index]?.bind fun clause => clause.evaluate i s := by
  have hall := forall₂_of_evaluateAll h
  clear h
  induction hall generalizing index with
  | nil => rfl
  | cons hfirst _ ih =>
    cases index with
    | zero => simpa using hfirst.symm
    | succ index => simpa using ih index

/-! ## The edges that a rule adds -/

namespace Rule

/-- The nodes that an end of the edges to be added stands for at a node: the node itself, or those that a
clause finds there. -/
def Ends (r : Rule) (i : Interpretation) (n : Node) : Endpoint → Node → Prop
  | .target, m => m = n
  | .clause index, m =>
    ∃ clause, r.clauses[index]? = some clause ∧ .node m ∈ clause.found i (.node n)

/-- The rule adds an edge at a component. It joins what the two ends stand for, and it is no loop. -/
def Adds (r : Rule) (i : Interpretation) (c : Component) (e : Edge) : Prop :=
  ∃ n inference, c = .node n ∧ r.inference = some inference ∧
    r.Ends i n inference.source e.source ∧ r.Ends i n inference.target e.target ∧
    e.source ≠ e.target

variable {r : Rule} {i : Interpretation} {c : Component} {findings : List Finding}

theorem mem_nodes_iff {n m : Node}
    (h : evaluateAll i (i.graph.surroundings (.node n)) r.clauses = some findings)
    {endpoint : Endpoint} : m ∈ endpoint.nodes n findings ↔ r.Ends i n endpoint m := by
  cases endpoint with
  | target => exact List.mem_singleton
  | clause index =>
    unfold Endpoint.nodes Ends
    have hplace := getElem?_evaluateAll h index
    cases hclause : r.clauses[index]? with
    | none =>
      rw [hclause] at hplace
      simp [hclause, show findings[index]? = none from hplace]
    | some clause =>
      rw [hclause, Option.bind_some] at hplace
      cases hfinding : findings[index]? with
      | none =>
        -- Every clause has found something, so this place would be beyond the last clause.
        have hlength := (forall₂_of_evaluateAll h).length_eq
        rw [List.getElem?_eq_none_iff] at hfinding
        obtain ⟨hlt, -⟩ := List.getElem?_eq_some_iff.1 hclause
        omega
      | some finding =>
        rw [hfinding] at hplace
        have hsupport := (Clause.support_of_evaluate hplace.symm).2
        simp [hclause, hfinding, Support.mem_nodeList_iff, hsupport]

theorem mem_edges_iff {n : Node} {inference : EdgeInference} {e : Edge}
    (h : evaluateAll i (i.graph.surroundings (.node n)) r.clauses = some findings) :
    e ∈ inference.edges n findings ↔
      r.Ends i n inference.source e.source ∧ r.Ends i n inference.target e.target ∧
        e.source ≠ e.target := by
  obtain ⟨source, target⟩ := e
  unfold EdgeInference.edges Edge.isLoop
  simp only [List.mem_filter, List.mem_flatMap, List.mem_map, Edge.mk.injEq, mem_nodes_iff h]
  constructor
  · rintro ⟨⟨s, hs, t, ht, rfl, rfl⟩, hloop⟩
    exact ⟨hs, ht, by simpa using hloop⟩
  · rintro ⟨hs, ht, hne⟩
    exact ⟨⟨source, hs, target, ht, rfl, rfl⟩, by simpa using hne⟩

/-- The edges of a grounding, if there is one: those that the rule adds. -/
theorem mem_inferred?_iff
    (h : evaluateAll i (i.graph.surroundings c) r.clauses = some findings) {e : Edge} :
    e ∈ (r.inferred? c findings).getD [] ↔ r.Adds i c e := by
  unfold inferred? Adds
  split
  · next n inference hinference =>
    rw [Option.getD_some, mem_edges_iff h, hinference]
    constructor
    · exact fun hedge => ⟨n, inference, rfl, rfl, hedge⟩
    · rintro ⟨_, _, ⟨⟩, ⟨⟩, hedge⟩
      exact hedge
  · next hnone =>
    simp only [Option.getD_none, List.not_mem_nil, false_iff]
    rintro ⟨n, inference, rfl, hinference, -⟩
    exact hnone n inference rfl hinference

/-! ## Groundings -/

/-- What the findings of the clauses make a grounding of. -/
theorem groundingOf_cases {atomTrace : Bool} {g : Grounding}
    (h : r.groundingOf atomTrace c findings = some g) :
    g.component = c ∧ g.edges = (r.inferred? c findings).getD [] ∧
      g.support = if atomTrace then findings.map (·.support) else [] := by
  unfold groundingOf at h
  dsimp only at h
  split at h
  · next hinferred =>
    cases h
    exact ⟨rfl, by rw [hinferred]; rfl, rfl⟩
  · cases h
  · next hinferred =>
    cases h
    exact ⟨rfl, by rw [hinferred]; rfl, rfl⟩

/-- Findings make a grounding unless the rule is about new edges and there is none. -/
theorem exists_groundingOf_iff {atomTrace : Bool} :
    (∃ g, r.groundingOf atomTrace c findings = some g) ↔ r.inferred? c findings ≠ some [] := by
  unfold groundingOf
  dsimp only
  cases r.inferred? c findings with
  | none => simp
  | some edges => cases edges <;> simp

/-- The rule applies at a component. It meets the criteria, its label is not static unless the rule is about
new edges, every clause finds enough members, and a rule about new edges has one to add. -/
structure Applicable (r : Rule) (i : Interpretation) (c : Component) : Prop where
  criteria : ∀ e ∈ r.criteria, ∃ v, i.bound? c e.1 = some v ∧ e.2.Contains v
  free : r.inference = none → i.isStatic c r.target = false
  met : ∀ clause ∈ r.clauses, clause.Met i c
  adds : r.inference ≠ none → ∃ e, r.Adds i c e

/-- Only node rules are about new edges. -/
theorem kind_of_inference (hr : r.validate = .ok ()) {inference : EdgeInference}
    (h : r.inference = some inference) : r.kind = .node := by
  have hfault := inferenceFault?_of_validate hr
  unfold inferenceFault? at hfault
  rw [h] at hfault
  dsimp only at hfault
  split at hfault
  · assumption
  · cases hfault

/-- A valid rule that is about new edges adds them wherever it may apply. -/
theorem infersAt_eq (hr : r.validate = .ok ()) (hc : c.kind = r.kind) :
    r.infersAt c = r.inference.isSome := by
  cases c with
  | node n => rfl
  | edge e =>
    cases hinference : r.inference with
    | none => rfl
    | some inference =>
      rw [kind_of_inference hr hinference] at hc
      cases hc

theorem isSome_inferred? (r : Rule) (c : Component) (findings : List Finding) :
    (r.inferred? c findings).isSome = r.infersAt c := by
  unfold inferred? infersAt
  cases c <;> cases r.inference <;> rfl

theorem admits_iff (hr : r.validate = .ok ()) (hc : c.kind = r.kind) {w : World}
    (hw : i.world? c = some w) :
    r.admits c w = true ↔
      (∀ e ∈ r.criteria, ∃ v, i.bound? c e.1 = some v ∧ e.2.Contains v) ∧
        (r.inference = none → i.isStatic c r.target = false) := by
  have hstatic : w.isStatic r.target = i.isStatic c r.target := by
    unfold World.isStatic Interpretation.isStatic
    rw [Interpretation.bound?_of_world? hw]
    cases w.get? r.target <;> rfl
  unfold admits meetsCriteria
  rw [infersAt_eq hr hc, hstatic, Bool.and_eq_true, List.all_eq_true]
  simp only [World.satisfies_iff, Interpretation.bound?_of_world? hw]
  refine and_congr_right fun _ => ?_
  cases r.inference <;> simp

/-- What the clauses find makes a grounding if a rule about new edges has one to add. -/
theorem inferred?_ne_iff (hr : r.validate = .ok ()) (hc : c.kind = r.kind)
    (h : evaluateAll i (i.graph.surroundings c) r.clauses = some findings) :
    r.inferred? c findings ≠ some [] ↔ (r.inference ≠ none → ∃ e, r.Adds i c e) := by
  have hsome := r.isSome_inferred? c findings
  rw [infersAt_eq hr hc] at hsome
  simp only [← mem_inferred?_iff h]
  cases hinferred : r.inferred? c findings with
  | none =>
    rw [hinferred] at hsome
    have hnone : r.inference = none := Option.not_isSome_iff_eq_none.1 (by rw [← hsome]; decide)
    simp [hnone]
  | some edges =>
    rw [hinferred] at hsome
    cases edges <;> simp [Option.isSome_iff_ne_none.1 hsome.symm]

/-- The rule has a grounding at a candidate just where it applies. -/
theorem exists_groundAt_iff (hr : r.validate = .ok ()) (hi : i.Fits)
    (hc : c ∈ i.graph.ofKind r.kind) (atomTrace : Bool) :
    (∃ g, r.groundAt i atomTrace c = some g) ↔ r.Applicable i c := by
  rw [← Graph.filter_components, List.mem_filter, decide_eq_true_iff] at hc
  obtain ⟨hmem, hkind⟩ := hc
  obtain ⟨w, hw⟩ := hi.mem.2 hmem
  have hmet : (∀ clause ∈ r.clauses, clause.Met i c) ↔
      ∃ findings, evaluateAll i (i.graph.surroundings c) r.clauses = some findings := by
    rw [← Option.isSome_iff_exists, evaluateAll_isSome_iff]
    simp only [Clause.isSome_evaluate_iff]
  constructor
  · rintro ⟨g, hg⟩
    obtain ⟨v, findings, hv, hadmits, hfindings, hg⟩ := groundAt_cases hg
    obtain ⟨hcriteria, hfree⟩ := (admits_iff hr hkind hv).1 hadmits
    exact ⟨hcriteria, hfree, hmet.2 ⟨findings, hfindings⟩,
      (inferred?_ne_iff hr hkind hfindings).1 (exists_groundingOf_iff.1 ⟨g, hg⟩)⟩
  · rintro ⟨hcriteria, hfree, hclauses, hadds⟩
    obtain ⟨findings, hfindings⟩ := hmet.1 hclauses
    obtain ⟨g, hg⟩ : ∃ g, r.groundingOf atomTrace c findings = some g :=
      exists_groundingOf_iff.2 ((inferred?_ne_iff hr hkind hfindings).2 hadds)
    refine ⟨g, ?_⟩
    unfold groundAt
    rw [hw]
    dsimp only
    rw [if_pos ((admits_iff hr hkind hw).2 ⟨hcriteria, hfree⟩), hfindings]
    exact hg

/-- A grounding is made at its component and adds what the rule adds there. If atoms are traced, it lists
for every clause the members that it finds. -/
theorem groundAt_view {atomTrace : Bool} {g : Grounding} (h : r.groundAt i atomTrace c = some g) :
    g.component = c ∧ (∀ e, e ∈ g.edges ↔ r.Adds i c e) ∧
      (atomTrace = true → List.Forall₂ (fun clause support => support.kind = clause.kind ∧
        support.components = clause.found i c) r.clauses g.support) := by
  obtain ⟨w, findings, -, -, hfindings, hg⟩ := groundAt_cases h
  obtain ⟨hcomponent, hedges, hsupport⟩ := groundingOf_cases hg
  refine ⟨hcomponent, fun e => ?_, fun htrace => ?_⟩
  · rw [hedges, mem_inferred?_iff hfindings]
  · rw [hsupport, if_pos htrace, List.forall₂_map_right_iff]
    exact (forall₂_of_evaluateAll hfindings).imp fun _ _ => Clause.support_of_evaluate

/-- A valid rule is grounded in an interpretation that arises. There is at most one grounding for each
candidate, in the order of the graph, and there is one just where the rule applies. Where a clause counts
only available members, these are the ones that the log of changes lists for the label. A grounding adds the
edges that the rule adds there. Where atoms are traced, it lists for every clause, and in the kind of the
clause, the members that qualify among those that count, in their order. -/
theorem ground_justified (hr : r.validate = .ok ()) (hi : i.Arises) (config : Config) :
    (i.graph.ofKind r.kind).Nodup ∧
      ((r.ground i config).map (·.component)).Sublist (i.graph.ofKind r.kind) ∧
      (∀ c ∈ i.graph.ofKind r.kind,
        (∃ g ∈ r.ground i config, g.component = c) ↔ r.Applicable i c) ∧
      (∀ clause ∈ r.clauses, clause.threshold.subset = .available → ∀ c,
        clause.counted i c = (i.graph.around clause.kind c).filter fun m =>
          decide (m ∈ i.changed clause.kind clause.label)) ∧
      ∀ g ∈ r.ground i config, (∀ e, e ∈ g.edges ↔ r.Adds i g.component e) ∧
        (config.atomTrace = true → List.Forall₂ (fun clause support => support.kind = clause.kind ∧
          support.components = clause.found i g.component) r.clauses g.support) := by
  have hcandidates : r.candidates i.graph = i.graph.ofKind r.kind := by
    unfold candidates Graph.ofKind
    cases r.kind <;> rfl
  have hground : r.ground i config
      = (i.graph.ofKind r.kind).filterMap (r.groundAt i config.atomTrace) := by
    rw [ground_eq, hcandidates]
  refine ⟨?_, ?_, fun c hc => ?_,
    fun _ _ hsubset c => Clause.counted_available hi hsubset c, fun g hg => ?_⟩
  · rw [← Graph.filter_components]
    exact i.graph.nodup_components.filter _
  · have hplace : (fun c => (r.groundAt i config.atomTrace c).map (·.component))
        = Option.guard fun c => (r.groundAt i config.atomTrace c).isSome := by
      funext c
      cases hg : r.groundAt i config.atomTrace c with
      | none => simp [Option.guard, hg]
      | some g => simp [Option.guard, hg, (groundAt_view hg).1]
    rw [hground, List.map_filterMap, hplace, List.filterMap_eq_filter]
    exact List.filter_sublist
  · rw [← exists_groundAt_iff hr hi.fits hc config.atomTrace, hground]
    constructor
    · rintro ⟨g, hg, hcomponent⟩
      obtain ⟨d, -, hg⟩ := List.mem_filterMap.1 hg
      obtain rfl : d = c := (groundAt_view hg).1.symm.trans hcomponent
      exact ⟨g, hg⟩
    · rintro ⟨g, hg⟩
      exact ⟨g, List.mem_filterMap.2 ⟨c, hc, hg⟩, (groundAt_view hg).1⟩
  · rw [hground] at hg
    obtain ⟨c, -, hg⟩ := List.mem_filterMap.1 hg
    obtain ⟨hcomponent, hedges, hsupport⟩ := groundAt_view hg
    rw [hcomponent]
    exact ⟨hedges, hsupport⟩

/-- All available successors have to be certain, and two edges have to have a label. Of the three successors
of `a` only `b` and `a` itself are available, so the rule applies at `a`; the edge from `a` to itself is not
added. The node `b` has no successors, and no fraction of them is enough. -/
theorem ground_justified_loop :
    let a : Node := ⟨"a"⟩
    let b : Node := ⟨"b"⟩
    let edges : List Edge := [⟨a, b⟩, ⟨a, ⟨"c"⟩⟩, ⟨a, a⟩]
    let new : Work := ⟨.ofGraph (Graph.build [] edges true false) { edge := [⟨"q"⟩] }, #[], .nothing⟩
    let certain (n : Node) : Operation :=
      ⟨.standard, {},
        .assert ⟨.node n, ⟨"p"⟩, .certain, 0, 0, .fact, "f", false, false, .ignore, []⟩⟩
    let i := (new.operateAll [certain b, certain a]).interpretation
    let rule : Rule :=
      { Rule.simple .node "back" ⟨"s"⟩ with
        clauses := [⟨.node, ⟨"p"⟩, .certain, ⟨.greaterEqual, .percent, .available, 1⟩⟩,
          ⟨.edge, ⟨"q"⟩, .unknown, .atLeast 2⟩]
        inference := some ⟨.clause 0, .target, none⟩ }
    (rule.validate = .ok () ∧ i.Arises) ∧
      (rule.ground i { Config.standard with atomTrace := true }).map
          (fun g => (g.component, g.edges, g.support))
        = [(.node a, [⟨b, a⟩], [.nodes [b, a], .edges edges])] ∧
      rule.Applicable i (.node a) ∧ ¬ rule.Applicable i (.node b) ∧
      ∀ clause ∈ rule.clauses, clause.Met i (.node a) := by
  intro a b edges new certain i rule
  have hvalid : rule.validate = .ok () := by decide +kernel
  have harises : i.Arises := .operateAll (w := new) (.new _ _) _
  have hground : (rule.ground i { Config.standard with atomTrace := true }).map
      (fun g => (g.component, g.edges, g.support))
        = [(.node a, [⟨b, a⟩], [.nodes [b, a], .edges edges])] := by decide +kernel
  obtain ⟨-, -, hiff, -⟩ :=
    ground_justified hvalid harises { Config.standard with atomTrace := true }
  have hnodes : .node a ∈ i.graph.ofKind rule.kind ∧ .node b ∈ i.graph.ofKind rule.kind := by
    decide +kernel
  obtain ⟨g, others, hlist, hg, hothers⟩ := List.map_eq_cons_iff.1 hground
  obtain rfl := List.map_eq_nil_iff.1 hothers
  rw [hlist] at hiff
  have hcomponent : g.component = .node a := congrArg (·.1) hg
  have happlies := (hiff _ hnodes.1).1 ⟨g, by simp, hcomponent⟩
  refine ⟨⟨hvalid, harises⟩, hground, happlies, fun hb => ?_, happlies.met⟩
  obtain ⟨g', hg', hcomponent'⟩ := (hiff _ hnodes.2).2 hb
  rw [List.mem_singleton.1 hg', hcomponent] at hcomponent'
  exact absurd hcomponent' (by decide)

end Rule

end AnnotatedLogic
