import AnnotatedLogic.Proofs.Places
import AnnotatedLogic.Proofs.Underway
/-!
# Every call is answered

Calls of a new reasoner are refused for invalid rules and facts, and for nothing else.

* `Rule.pointsToNodes_of_validate`: a rule that is accepted names node clauses as the ends of its edges.
* `Graph.Joins`: an edge between different nodes of a graph. The edges of groundings are such
  (`Grounding.Rooted.joins`), so those that calls add are (`Prepared.joins_of_mem_callAttempts`).
* `Prepared`: the rules are valid, and the firings to come add no loops.
* `Reasoner.runUpTo?`: a run that counts up to its horizon and asks the queue for a range of times. An
  empty range would be refused; `runUpTo?_eq` says that none is asked for.
* `calls_answer`: all of it.
-/

namespace AnnotatedLogic

/-! ## Rules and facts that are accepted -/

/-- The ends of the edges that the rule adds are the node itself or node clauses of the rule. -/
def Rule.PointsToNodes (r : Rule) : Prop :=
  ∀ inference, r.inference = some inference → ∀ index : Nat,
    inference.source = .clause index ∨ inference.target = .clause index →
      ∃ c, r.clauses[index]? = some c ∧ c.kind = .node

namespace Rule

theorem node_of_endpointFault? {clauses : List Clause} {index : Nat}
    (h : endpointFault? clauses (.clause index) = none) :
    ∃ c, clauses[index]? = some c ∧ c.kind = .node := by
  unfold endpointFault? at h
  dsimp only at h
  split at h
  · next c hc =>
    split at h
    · next hkind => exact ⟨c, hc, hkind⟩
    · cases h
  · cases h

theorem inferenceFault?_of_validate {r : Rule} (h : r.validate = .ok ()) :
    r.inferenceFault? = none := by
  unfold validate at h
  split at h
  · cases h
  · split at h
    · cases h
    · split at h
      · cases h
      · next hnone => exact (Option.or_eq_none_iff.1 hnone).2

theorem pointsToNodes_of_validate {r : Rule} (h : r.validate = .ok ()) : r.PointsToNodes := by
  have hfault := inferenceFault?_of_validate h
  intro inference hinference index hindex
  unfold inferenceFault? at hfault
  rw [hinference] at hfault
  dsimp only at hfault
  split at hfault
  · obtain ⟨hsource, htarget⟩ := Option.or_eq_none_iff.1 hfault
    rcases hindex with hindex | hindex
    · rw [hindex] at hsource
      exact node_of_endpointFault? hsource
    · rw [hindex] at htarget
      exact node_of_endpointFault? htarget
  · cases hfault

end Rule

/-- A window stays valid when it is moved. -/
theorem Fact.validate_shift {f : Fact} (h : f.validate = .ok ()) (steps : Nat) :
    (f.shift steps).validate = .ok () := by
  unfold validate at h ⊢
  split at h
  · cases h
  · next hwindow =>
    refine if_neg fun ⟨hlt, hstatic⟩ => hwindow ⟨?_, hstatic⟩
    exact Nat.lt_of_add_lt_add_right hlt

/-- What a call may be refused for: an invalid rule or fact that it brings along. The windows of further
facts count from a later timestep. -/
inductive Call.Refused : Call → Error → Prop where
  | rule {rule : Rule} {error : Error} (h : rule.validate = .error error) :
      Refused (.addRule rule) error
  | fact {fact : Fact} {error : Error} (h : fact.validate = .error error) :
      Refused (.addFact fact) error
  | facts {extra steps : Nat} {facts : List Fact} {fact : Fact} {error : Error} (hf : fact ∈ facts)
      (h : (fact.shift steps).validate = .error error) : Refused (.reasonAgain extra facts) error

/-! ## Edges that are added -/

/-- The ends of the edge are different nodes of the graph. -/
structure Graph.Joins (g : Graph) (e : Edge) : Prop where
  source : e.source ∈ g.nodes
  target : e.target ∈ g.nodes
  ne : e.source ≠ e.target

/-- A graph that grows gets no new nodes. -/
theorem Graph.Joins.of_grows {g h : Graph} {e : Edge} (he : h.Joins e) (hgrows : g.Grows h) :
    g.Joins e :=
  ⟨hgrows.nodes ▸ he.source, hgrows.nodes ▸ he.target, he.ne⟩

/-- No grounding is about a loop. -/
theorem Rule.ne_of_mem_ground {r : Rule} {i : Interpretation} {config : Config} {g : Grounding}
    (h : g ∈ r.ground i config) : ∀ e ∈ g.edges, e.source ≠ e.target := by
  obtain ⟨-, findings, -, hedges⟩ := mem_ground_cases h
  rcases hedges with hnone | ⟨n, inference, -, hedges⟩
  · rw [hnone]
    simp
  · intro e he
    rw [hedges] at he
    have hloop := (List.mem_filter.1 he).2
    simpa [Edge.isLoop] using hloop

theorem Grounding.Rooted.joins {g : Grounding} {graph : Graph} (h : g.Rooted graph)
    (hne : ∀ e ∈ g.edges, e.source ≠ e.target) : ∀ e ∈ g.edges, graph.Joins e :=
  fun e he => ⟨(h.ends e he).1, (h.ends e he).2, hne e he⟩

/-- An effect that adds an edge adds one between different nodes. -/
def Effect.Joins (g : Graph) (effect : Effect) : Prop := ∀ e, effect = .link e → g.Joins e

/-- A grounding asks for its own edges. -/
theorem Rule.joins_of_mem_effects {r : Rule} {t iteration : Nat} {g : Grounding} {graph : Graph}
    (hg : ∀ e ∈ g.edges, graph.Joins e) {effect : Effect}
    (h : effect ∈ r.effects t iteration g) : effect.Joins graph := by
  rintro e rfl
  unfold effects at h
  split at h
  · cases List.mem_singleton.1 h
  · rcases List.mem_append.1 h with h | h
    · obtain ⟨d, hd, heq⟩ := List.mem_map.1 h
      cases heq
      exact hg _ hd
    · obtain ⟨a, -, heq⟩ := List.mem_map.1 h
      cases heq

namespace Reasoner

variable {r : Reasoner}

/-! ## Rules and firings of a reasoner -/

/-- The rules are valid, and the firings to come add no loops. -/
structure Prepared (r : Reasoner) : Prop where
  rules : ∀ rule ∈ r.rules, rule.validate = .ok ()
  ne : ∀ f ∈ r.pending, ∀ e ∈ f.grounding.edges, e.source ≠ e.target

theorem Prepared.timestep (h : r.Prepared) (t : Nat) : (r.timestep t).1.Prepared := by
  have hrules : (r.timestep t).1.rules = r.rules := by rw [timestep_frame]
  refine ⟨hrules ▸ h.rules, fun f hf => ?_⟩
  rcases mem_pending_timestep hf with hf | hf
  · exact h.ne f hf
  · obtain ⟨rule, -, hf⟩ := List.mem_flatMap.1 hf
    obtain ⟨g, hg, rfl⟩ := List.mem_map.1 hf
    exact Rule.ne_of_mem_ground hg

theorem kept_prepared (rules : Rule → Prop) (facts : Fact → Prop) : Kept rules facts Prepared where
  timestep h := h.timestep _
  complete {r s _} h hs := by
    have hstep := h.timestep r.nextTime
    rw [hs] at hstep
    exact ⟨hstep.rules, hstep.ne⟩
  addRule h _ hv := by
    refine ⟨fun rule hrule => ?_, h.ne⟩
    rcases List.mem_append.1 hrule with hrule | hrule
    · exact h.rules rule hrule
    · rw [List.mem_singleton.1 hrule]
      exact hv
  addFact h _ _ _ := ⟨h.rules, h.ne⟩
  setPairing h _ := ⟨h.rules, h.ne⟩

theorem prepared_create {graph : Graph} {labelling : Labelling} {config : Config}
    (h : create graph labelling config = .ok r) : r.Prepared := by
  unfold create at h
  split at h <;> cases h
  exact ⟨by simp, by simp⟩

/-- Whatever a timestep attempts, the edges that it adds join different nodes. -/
theorem Prepared.joins_of_mem_attempts (h : r.Prepared) (hsound : r.Sound) {t : Nat} {a : Attempt}
    (ha : a ∈ r.attempts t) : a.effect.Joins r.interpretation.graph := by
  refine ((r.keptByEffects_over _ r.interpretation.graph).timestepAttempts (hsound.startWork t)
    (fun effect he => ?_) (fun effect he => ?_) (fun {iteration stage w} hstage hw effect he => ?_)
    a ha).2
  · obtain ⟨f, -, rfl⟩ := List.mem_map.1 he
    rintro e ⟨⟩
  · obtain ⟨f, hf, he⟩ := List.mem_flatMap.1 he
    have hf := (List.mem_filter.1 hf).1
    exact Rule.joins_of_mem_effects ((hsound.pending f hf).joins (h.ne f hf)) he
  · obtain ⟨rule, -, g, hg, he⟩ := exists_rule_of_mem_stage hstage he
    have hjoins := (Rule.rooted_of_mem_ground hg).joins (Rule.ne_of_mem_ground hg)
    exact Rule.joins_of_mem_effects (fun e hedge => (hjoins e hedge).of_grows hw.grows) he

theorem Prepared.joins_of_mem_callAttempts (h : r.Prepared) (hsound : r.Sound) {c : Call}
    {a : Attempt} (ha : a ∈ r.callAttempts c) : a.effect.Joins r.interpretation.graph := by
  obtain ⟨s, hs, ha⟩ := exists_start_of_mem_callAttempts ha
  have hprepared : s.Prepared :=
    (kept_prepared (fun _ => True) fun _ => True).callStarts h c.brings_any hs
  have hjoins := hprepared.joins_of_mem_attempts (hsound.of_mem_callStarts hs) ha
  exact fun e he => (hjoins e he).of_grows (leads_of_mem_callStarts hs).grows

/-! ## Ranges of times -/

/-- The firings that are due from a first to a last time. An empty range is refused. -/
def firingsFrom? (r : Reasoner) (first last : Nat) : Option (List Firing) :=
  if first ≤ last then some (r.pending.filter fun f => decide (first ≤ f.due ∧ f.due ≤ last))
  else none

/-- Whether something is to come after `t` and up to `horizon`. The queue is asked if no fact is. -/
def asksPending? (r : Reasoner) (t horizon : Nat) : Option Bool :=
  if r.facts.any (·.isPending t horizon) then some true
  else (r.firingsFrom? (t + 1) horizon).map fun firings => !firings.isEmpty

/-- A run that counts up to its horizon, and comes to nothing if a range is refused. -/
def runUpTo? (r : Reasoner) (t horizon : Nat) : Option (Reasoner × Except Halt Bool) :=
  match r.timestep t with
  | (s, .error halt) => some (s, .error halt)
  | (s, .ok progress) =>
    let s := s.complete t
    if t < horizon then
      match s.asksPending? t horizon with
      | none => none
      | some pending =>
        if !pending && progress.settled s.config.convergence then some (s, .ok true)
        else s.runUpTo? (t + 1) horizon
    else some (s, .ok false)
termination_by horizon - t

/-- Before the horizon, the range is not empty. -/
theorem asksPending?_eq (r : Reasoner) {t horizon : Nat} (h : t < horizon) :
    r.asksPending? t horizon = some (r.hasPending t horizon) := by
  unfold asksPending? hasPending firingsFrom?
  rw [if_pos (Nat.succ_le_of_lt h), Option.map_some]
  cases r.facts.any (·.isPending t horizon) with
  | true => rfl
  | false =>
    rw [if_neg Bool.false_ne_true, Bool.false_or]
    congr 1
    rw [Bool.eq_iff_iff, Bool.not_eq_true', List.any_eq_true, ← Bool.not_eq_true, List.isEmpty_iff,
      List.filter_eq_nil_iff]
    simp only [not_forall, not_not, exists_prop]
    exact Iff.rfl

/-- No empty range is asked for, so the run is the one that counts down what is left of its time. -/
theorem runUpTo?_eq (r : Reasoner) (more t : Nat) :
    r.runUpTo? t (t + more) = some (r.runFrom more t) := by
  induction more generalizing r t with
  | zero =>
    rw [runUpTo?]
    rcases hstep : r.timestep t with ⟨s, halt | progress⟩
    · rw [runFrom_of_error hstep]
    · rw [runFrom_zero hstep]
      exact if_neg (Nat.lt_irrefl t)
  | succ more ih =>
    have hlt : t < t + (more + 1) := by omega
    rw [runUpTo?]
    rcases hstep : r.timestep t with ⟨s, halt | progress⟩
    · rw [runFrom_of_error hstep]
    · dsimp only
      rw [runFrom_succ hstep, Nat.add_assoc t more 1, if_pos hlt, asksPending?_eq _ hlt]
      dsimp only
      split
      · rfl
      · rw [show t + (more + 1) = t + 1 + more by omega]
        exact ih (s.complete t) (t + 1)

/-! ## Answers -/

/-- Facts are taken up to the first that is invalid where it is moved to. -/
theorem exists_fault_of_addFacts {facts : List Fact} {error : Error}
    (h : (r.addFacts facts).2 = some error) :
    ∃ f ∈ facts, (f.shift r.nextTime).validate = .error error := by
  induction facts generalizing r with
  | nil => cases h
  | cons fact facts ih =>
    unfold addFacts addFact at h
    cases hv : (fact.shift r.nextTime).validate with
    | error fault =>
      rw [hv] at h
      cases h
      exact ⟨fact, by simp, hv⟩
    | ok u =>
      rw [hv] at h
      obtain ⟨f, hf, hfault⟩ := ih h
      exact ⟨f, by simp [hf], hfault⟩

theorem Sound.reasonAgain_ok (h : r.Sound) (extra : Nat) {facts : List Fact}
    (hfacts : ∀ f ∈ facts, f.validate = .ok ()) :
    ∃ report, (r.reasonAgain extra facts).2 = .ok report := by
  have hadded : (r.addFacts facts).1.Sound := by
    rw [addFacts_frame]
    exact ⟨h.fits, h.pending⟩
  unfold reasonAgain
  rcases hadd : r.addFacts facts with ⟨s, _ | error⟩ <;> rw [hadd] at hadded
  · cases extra with
    | zero => exact ⟨_, rfl⟩
    | succ more => exact hadded.run more
  · obtain ⟨f, hf, hfault⟩ := exists_fault_of_addFacts (congrArg Prod.snd hadd)
    rw [Fact.validate_shift (hfacts f hf)] at hfault
    cases hfault

/-- A call is refused for what it brings along and for nothing else. -/
theorem Sound.refused_of_call (h : r.Sound) {c : Call} {error : Error}
    (hcall : (r.call c).2 = .error error) : c.Refused error := by
  cases hrun : r.runOf? c with
  | some run =>
    obtain ⟨report, hreport⟩ := (h.runOf? hrun).run run.2
    rw [call_of_runOf? hrun] at hcall
    dsimp only at hcall
    rw [hreport] at hcall
    cases hcall
  | none =>
    cases c with
    | reason => cases hrun
    | reasonAgain extra facts =>
      rw [call_reasonAgain hrun] at hcall
      dsimp only at hcall
      split at hcall <;> cases hcall
      next hadd =>
      obtain ⟨f, hf, hfault⟩ := exists_fault_of_addFacts hadd
      exact .facts hf hfault
    | addRule rule =>
      unfold Reasoner.call addRule at hcall
      dsimp only at hcall
      cases hv : rule.validate <;> rw [hv] at hcall <;> cases hcall
      exact .rule hv
    | addFact fact =>
      unfold Reasoner.call addFact at hcall
      dsimp only at hcall
      cases hv : fact.validate <;> rw [hv] at hcall <;> cases hcall
      exact .fact hv
    | setPairing pairing => cases hcall

/-- Whatever a new reasoner has been asked before, refused calls included: a run has a report, and so has
one over further timesteps whose facts are valid. A call is refused for an invalid rule or fact that it
brings along, and never because a component or a node is not there. A queue that knows the rules of its
firings by their places has no place that is out of range, now or later. The rules name node clauses as
the ends of their edges, and the edges that are to be added or that a call adds join different nodes of
the graph. No run asks the queue for an empty range of times. -/
theorem calls_answer {graph : Graph} {labelling : Labelling} {config : Config} {new : Reasoner}
    (hnew : create graph labelling config = .ok new) (cs : List Call) :
    let r := (new.calls cs).1
    (∃ report, r.reason.2 = .ok report) ∧
      (∀ extra facts, (∀ f ∈ facts, f.validate = .ok ()) →
        ∃ report, (r.reasonAgain extra facts).2 = .ok report) ∧
      (∀ c error, (r.call c).2 = .error error → c.Refused error) ∧
      (∃ slots, r.Queued slots) ∧
      (∀ slots, r.Queued slots → (∀ s ∈ slots, s.place < r.rules.length) ∧
        ∀ later, List.Forall₂ (Slot.Names (r.calls later).1.rules) slots r.pending) ∧
      (∀ rule ∈ r.rules, rule.PointsToNodes) ∧
      (∀ f ∈ r.pending, ∀ e ∈ f.grounding.edges, r.interpretation.graph.Joins e) ∧
      (∀ c, ∀ a ∈ r.callAttempts c, ∀ e, a.effect = .link e → r.interpretation.graph.Joins e) ∧
      ∀ c s more, r.runOf? c = some (s, more) →
        s.runUpTo? s.nextTime (s.nextTime + more) = some (s.runFrom more s.nextTime) := by
  intro r
  have hbrings : ∀ c ∈ cs, c.Brings (fun _ => True) fun _ => True := fun c _ => c.brings_any
  have hsound : r.Sound := (kept_sound _ _).calls (sound_create hnew) hbrings
  have hprepared : r.Prepared := (kept_prepared _ _).calls (prepared_create hnew) hbrings
  refine ⟨hsound.run _, fun extra facts hfacts => hsound.reasonAgain_ok extra hfacts,
    fun c error hcall => hsound.refused_of_call hcall,
    (kept_queued _ _).calls ⟨[], .create hnew⟩ hbrings,
    fun slots hslots => ⟨hslots.place_lt, hslots.names_calls⟩,
    fun rule hrule => Rule.pointsToNodes_of_validate (hprepared.rules rule hrule),
    fun f hf => (hsound.pending f hf).joins (hprepared.ne f hf),
    fun c a ha => hprepared.joins_of_mem_callAttempts hsound ha,
    fun c s more _ => s.runUpTo?_eq more s.nextTime⟩

/-- A rule that is refused, and one that turns an edge around two timesteps later: the run is over by
then, the firing is still to come, and further timesteps add the edge. -/
theorem calls_answer_edge_to_come :
    let a : Node := ⟨"A"⟩
    let b : Node := ⟨"B"⟩
    let clause : Clause := ⟨.node, ⟨"p"⟩, .certain, default⟩
    let turn : Rule :=
      { Rule.simple .node "turn" ⟨"q"⟩ with
        delay := 2, clauses := [clause], inference := some ⟨.clause 0, .target, none⟩ }
    let hasty : Rule := { turn with immediate := true }
    let here : Fact := ⟨"here", .node b, ⟨"p"⟩, .certain, 0, 0, false, false⟩
    ∃ new, create (Graph.empty.join ⟨a, b⟩) {} { Config.standard with timesteps := 0 } = .ok new ∧
      let r := (new.calls [.addRule hasty, .addRule turn, .addFact here, .reason]).1
      r.pending.map (·.grounding.edges) = [[⟨b, a⟩]] ∧
        (∀ f ∈ r.pending, ∀ e ∈ f.grounding.edges, r.interpretation.graph.Joins e) ∧
        (∃ slots, r.Queued slots ∧ slots.length = 1) ∧
        (∃ report, (r.reasonAgain 2 [here]).2 = .ok report) ∧
        (r.reasonAgain 2 [here]).1.interpretation.graph.edges = [⟨a, b⟩, ⟨b, a⟩] := by
  intro a b clause turn hasty here
  refine ⟨_, rfl, ?_⟩
  intro r
  have hnew : create (Graph.empty.join ⟨a, b⟩) {} { Config.standard with timesteps := 0 } = .ok _ := rfl
  obtain ⟨-, hagain, -, ⟨slots, hslots⟩, hqueue, -, hjoins, -⟩ :=
    calls_answer hnew [.addRule hasty, .addRule turn, .addFact here, .reason]
  -- Under its name, the state is compared and not computed.
  have hr : r = (calls _ [.addRule hasty, .addRule turn, .addFact here, .reason]).1 := rfl
  rw [← hr] at hjoins
  have hone : r.pending.map (·.grounding.edges) = [[⟨b, a⟩]] := by decide +kernel
  have hlength : slots.length = r.pending.length := ((hqueue slots hslots).2 []).length_eq
  refine ⟨hone, hjoins, ⟨slots, hslots, ?_⟩, hagain 2 [here] (by decide), by decide +kernel⟩
  rw [hlength, ← List.length_map, hone]
  rfl

end Reasoner

end AnnotatedLogic
