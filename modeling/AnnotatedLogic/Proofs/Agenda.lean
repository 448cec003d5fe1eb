import AnnotatedLogic.Proofs.Horizon
import AnnotatedLogic.Proofs.Places
import AnnotatedLogic.Proofs.Table
/-!
# What is to come

Whether a run may end early depends on what is to come up to its horizon: timesteps at which a fact holds, at
which a static fact begins, or at which firings are due. The test does not go through these timesteps. It
compares the ends of windows, and in a queue that is kept by times it looks at the times only.

* `Fact.AsksFor`, `Reasoner.Awaits`: a timestep at which a fact, or anything, is to come.
* `Fact.isPending_iff`: the comparison of ends finds the timesteps of a valid fact.
* `Agenda`, `HasAgenda`: a queue that keeps the firings under the times at which they are due, through all
  that a reasoner is asked. `HasAgenda.lists` says what it holds.
* `hasPending_exact`: the test finds out whether there is such a timestep, and so does a look at the times.
-/

namespace AnnotatedLogic

/-! ## Facts to come -/

namespace Fact

variable {f : Fact} {t u horizon : Nat}

/-- The fact asks for a timestep. It is active there or, if it is static, it starts there. -/
inductive AsksFor (f : Fact) (u : Nat) : Prop where
  | active (hstatic : f.isStatic = false) (hactive : f.isActive u = true)
  | starts (hstatic : f.isStatic = true) (hstart : f.tLower = u)

/-- The window of a valid fact that is not static has a first timestep. -/
theorem lower_le_of_validate (h : f.validate = .ok ()) (hstatic : f.isStatic = false) :
    f.tLower ≤ f.tUpper := by
  unfold validate at h
  by_contra hlt
  rw [if_pos ⟨by omega, hstatic⟩] at h
  cases h

/-- A fact is pending if it asks for a timestep in the range. The first one it can ask for is its first
timestep or, if that is over, the first one in the range. -/
theorem isPending_iff (hf : f.validate = .ok ()) :
    f.isPending t horizon = true ↔ ∃ u, t < u ∧ u ≤ horizon ∧ f.AsksFor u := by
  unfold isPending lastTime?
  simp only [Bool.and_eq_true, Bool.or_eq_true, decide_eq_true_eq]
  cases hstatic : f.isStatic with
  | true =>
    simp only [if_true, Bool.false_eq_true, or_false]
    constructor
    · rintro ⟨hfirst, hlower⟩
      exact ⟨f.tLower, hlower, by omega, .starts hstatic rfl⟩
    · rintro ⟨u, htu, hu, hasks⟩
      cases hasks with
      | active hnot => simp [hstatic] at hnot
      | starts _ hstart => omega
  | false =>
    have hwindow := lower_le_of_validate hf hstatic
    simp only [Bool.false_eq_true, if_false, decide_eq_true_eq]
    constructor
    · rintro ⟨hfirst, hlast⟩
      refine ⟨max f.tLower (t + 1), by omega, hfirst, .active hstatic ?_⟩
      simp only [isActive, hstatic, Bool.false_or, Bool.and_eq_true, decide_eq_true_eq]
      omega
    · rintro ⟨u, htu, hu, hasks⟩
      cases hasks with
      | active _ hactive =>
        simp only [isActive, hstatic, Bool.false_or, Bool.and_eq_true, decide_eq_true_eq] at hactive
        omega
      | starts hnot => simp [hstatic] at hnot

end Fact

/-! ## Queues by times -/

/-- The firings to come, under the times at which they are due. -/
abbrev Agenda := Table Nat (List Firing)

namespace Agenda

variable {q : Agenda} {queue firings : List Firing}

/-- Enters firings behind those that are due at the same time. Where there are none, nothing is entered. -/
def schedule (q : Agenda) (due : Nat) (firings : List Firing) : Agenda :=
  if firings.isEmpty then q else q.put due ((q.get? due).getD [] ++ firings)

/-- Lets go of what is due at a time. -/
def spend (q : Agenda) (t : Nat) : Agenda := ⟨q.entries.filter (·.1 != t)⟩

/-- Whether there is an entry after `t` and up to `horizon`, whatever it is. -/
def hasBetween (q : Agenda) (t horizon : Nat) : Bool :=
  q.keys.any fun u => decide (t < u ∧ u ≤ horizon)

/-- The agenda holds the firings of a queue, each under its time, and has no entry without firings. -/
structure Lists (q : Agenda) (queue : List Firing) : Prop where
  due : ∀ u, (q.get? u).getD [] = queue.filter (·.due == u)
  nonempty : ∀ u, q.get? u ≠ some []

theorem get?_spend (q : Agenda) (t u : Nat) :
    (q.spend t).get? u = if u = t then none else q.get? u := by
  unfold spend Table.get?
  dsimp only
  induction q.entries with
  | nil => simp [Table.find?]
  | cons e rest ih =>
    obtain ⟨key, firings⟩ := e
    by_cases hkey : key = t
    · subst hkey
      rw [List.filter_cons_of_neg (by simp), ih]
      by_cases hu : u = key
      · simp [hu]
      · simp [hu, Table.find?, Ne.symm hu]
    · rw [List.filter_cons_of_pos (by simpa using hkey), Table.find?, Table.find?, ih]
      by_cases hu : u = t
      · simp [hu, hkey]
      · simp [hu]

theorem lists_nil : Lists Table.empty [] := ⟨fun _ => rfl, fun _ h => by cases h⟩

/-- Firings that are all due at one time come behind those of the queue. -/
theorem Lists.schedule (h : q.Lists queue) {due : Nat} (hdue : ∀ f ∈ firings, f.due = due) :
    (q.schedule due firings).Lists (queue ++ firings) := by
  unfold Agenda.schedule
  cases firings with
  | nil => simpa using h
  | cons f fs =>
    have hput (u : Nat) := q.get?_put due u ((q.get? due).getD [] ++ f :: fs)
    rw [List.isEmpty_cons, if_neg (by decide)]
    refine ⟨fun u => ?_, fun u => ?_⟩
    · rw [hput, List.filter_append, ← h.due u]
      by_cases hu : u = due
      · subst hu
        have hall : (f :: fs).filter (·.due == u) = f :: fs :=
          List.filter_eq_self.2 fun g hg => by simpa using hdue g hg
        rw [if_pos rfl, hall, Option.getD_some]
      · have hnone : (f :: fs).filter (·.due == u) = [] :=
          List.filter_eq_nil_iff.2 fun g hg => by simpa [hdue g hg] using Ne.symm hu
        rw [if_neg hu, hnone, List.append_nil]
    · rw [hput]
      split
      · simp
      · exact h.nonempty u

/-- What is due at a time is let go of by the queue as well. -/
theorem Lists.spend (h : q.Lists queue) (t : Nat) :
    (q.spend t).Lists (queue.filter (·.due != t)) := by
  refine ⟨fun u => ?_, fun u => ?_⟩
  · rw [get?_spend, List.filter_filter]
    by_cases hu : u = t
    · subst hu
      simp
    · have hother : (fun f : Firing => f.due == u && f.due != t) = fun f => f.due == u := by
        funext f
        by_cases hf : f.due = u <;> simp [hf, hu]
      rw [if_neg hu, hother, h.due]
  · rw [get?_spend]
    split
    · simp
    · exact h.nonempty u

/-- The times of the agenda are those at which firings are due. -/
theorem Lists.mem_keys_iff (h : q.Lists queue) {u : Nat} :
    u ∈ q.keys ↔ queue.filter (·.due == u) ≠ [] := by
  rw [← h.due u, ← not_iff_not, ← Table.get?_eq_none, ne_eq, not_not]
  cases hentry : q.get? u with
  | none => simp
  | some firings =>
    have hnonempty : firings ≠ [] := fun hnil => h.nonempty u (hnil ▸ hentry)
    simpa using hnonempty

/-- A look at the times finds out whether firings are due in the range. -/
theorem Lists.hasBetween_iff (h : q.Lists queue) {t horizon : Nat} :
    q.hasBetween t horizon = true ↔
      ∃ u, t < u ∧ u ≤ horizon ∧ queue.filter (·.due == u) ≠ [] := by
  unfold hasBetween
  simp only [List.any_eq_true, decide_eq_true_eq, h.mem_keys_iff]
  constructor
  · rintro ⟨u, hdue, ht, hu⟩
    exact ⟨u, ht, hu, hdue⟩
  · rintro ⟨u, ht, hu, hdue⟩
    exact ⟨u, hdue, ht, hu⟩

end Agenda

namespace Reasoner

variable {r : Reasoner} {q : Agenda} {t horizon : Nat}

/-- Enters the firings of the rules with a delay, rule after rule. -/
def enterDelayed (r : Reasoner) (q : Agenda) (t : Nat) (i : Interpretation) : Agenda :=
  (r.rules.filter (·.delay != 0)).foldl
    (fun q rule => q.schedule (t + rule.delay)
      ((rule.ground i r.config).map fun g => ⟨t + rule.delay, rule, g⟩)) q

/-- The agenda after the next timestep: unchanged if it stops at a fact, else without what was due and, if
it is completed, with what it schedules. -/
def agendaAfter (r : Reasoner) (q : Agenda) : Agenda :=
  match (r.startWork r.nextTime).performAll r.config r.pairing (r.factEffects r.nextTime) with
  | (_, some _) => q
  | (_, none) =>
    match r.timestep r.nextTime with
    | (_, .error _) => q.spend r.nextTime
    | (s, .ok _) => r.enterDelayed (q.spend r.nextTime) r.nextTime s.interpretation

/-- The agenda of a reasoner that keeps its queue by times, after all that it has been asked. -/
inductive HasAgenda : Reasoner → Agenda → Prop where
  | create {graph : Graph} {labelling : Labelling} {config : Config} {r : Reasoner}
      (h : create graph labelling config = .ok r) : HasAgenda r .empty
  | timestep {r : Reasoner} {q : Agenda} (h : HasAgenda r q) :
      HasAgenda (r.timestep r.nextTime).1 (r.agendaAfter q)
  | complete {r s : Reasoner} {q : Agenda} {progress : Progress} (h : HasAgenda r q)
      (hs : r.timestep r.nextTime = (s, .ok progress)) :
      HasAgenda (s.complete r.nextTime) (r.agendaAfter q)
  | addRule {r : Reasoner} {q : Agenda} (h : HasAgenda r q) (rule : Rule) :
      HasAgenda { r with rules := r.rules ++ [rule] } q
  | addFact {r : Reasoner} {q : Agenda} (h : HasAgenda r q) (fact : Fact) :
      HasAgenda { r with facts := r.facts ++ [fact] } q
  | setPairing {r : Reasoner} {q : Agenda} (h : HasAgenda r q) (pairing : Pairing) :
      HasAgenda (r.setPairing pairing) q

/-- Whatever a reasoner has been asked, it has such an agenda. -/
theorem kept_hasAgenda (rules : Rule → Prop) (facts : Fact → Prop) :
    Kept rules facts fun r => ∃ q, r.HasAgenda q where
  timestep := fun ⟨_, h⟩ => ⟨_, h.timestep⟩
  complete := fun ⟨_, h⟩ hs => ⟨_, h.complete hs⟩
  addRule := fun ⟨_, h⟩ _ _ => ⟨_, h.addRule _⟩
  addFact := fun ⟨_, h⟩ _ _ _ => ⟨_, h.addFact _⟩
  setPairing := fun ⟨_, h⟩ pairing => ⟨_, h.setPairing pairing⟩

theorem lists_enterDelayed {queue : List Firing} (h : q.Lists queue) (t : Nat) (i : Interpretation) :
    (r.enterDelayed q t i).Lists (queue ++ r.delayedFirings t i) := by
  unfold enterDelayed delayedFirings
  induction r.rules.filter (·.delay != 0) generalizing q queue with
  | nil => simpa using h
  | cons rule others ih =>
    have hdue : ∀ f ∈ (rule.ground i r.config).map fun g => (⟨t + rule.delay, rule, g⟩ : Firing),
        f.due = t + rule.delay := by
      intro f hf
      obtain ⟨g, -, rfl⟩ := List.mem_map.1 hf
      rfl
    rw [List.foldl_cons, List.flatMap_cons, ← List.append_assoc]
    exact ih (h.schedule hdue)

theorem lists_timestep (h : q.Lists r.pending) :
    (r.agendaAfter q).Lists (r.timestep r.nextTime).1.pending := by
  have hrest := h.spend r.nextTime
  have hpassage := r.timestep_passage r.nextTime
  unfold agendaAfter
  generalize r.timestep r.nextTime = result at hpassage
  cases hpassage with
  | facts hfacts =>
    rw [hfacts]
    exact h
  | due hfacts | loop hfacts =>
    rw [hfacts]
    exact hrest
  | completed hfacts =>
    rw [hfacts]
    exact lists_enterDelayed hrest _ _

/-- The agenda holds the firings to come. -/
theorem HasAgenda.lists (h : r.HasAgenda q) : q.Lists r.pending := by
  induction h with
  | create hnew =>
    unfold Reasoner.create at hnew
    split at hnew <;> cases hnew
    exact Agenda.lists_nil
  | timestep _ ih => exact lists_timestep ih
  | complete _ hs ih =>
    have hstep := lists_timestep ih
    rw [hs] at hstep
    exact hstep
  | addRule _ _ ih | addFact _ _ ih | setPairing _ _ ih => exact ih

/-! ## The test for an early end -/

/-- Something is to come at a timestep: a fact asks for it, or firings are due. -/
inductive Awaits (r : Reasoner) (u : Nat) : Prop where
  | fact {f : Fact} (hf : f ∈ r.facts) (hasks : f.AsksFor u)
  | firings (hdue : r.dueFirings u ≠ [])

/-- Only valid facts are entered. -/
theorem kept_validFacts (rules : Rule → Prop) (facts : Fact → Prop) :
    Kept rules facts fun r => ∀ f ∈ r.facts, f.validate = .ok () where
  timestep h := by rwa [timestep_frame]
  complete {r s _} h hs := by
    show ∀ f ∈ s.facts, f.validate = .ok ()
    rwa [(sameSetup_timestep hs).facts]
  addRule h _ _ := h
  addFact h _ _ hv := by
    intro f hf
    rcases List.mem_append.1 hf with hf | hf
    · exact h f hf
    · rw [List.mem_singleton.1 hf, hv]
  setPairing h _ := h

theorem Reachable.validFacts {rules : Rule → Prop} {facts : Fact → Prop} (h : r.Reachable rules facts) :
    ∀ f ∈ r.facts, f.validate = .ok () := by
  refine (kept_validFacts rules facts).reachable (fun hnew => ?_) h
  unfold Reasoner.create at hnew
  split at hnew <;> cases hnew
  simp

theorem pending_any_iff :
    (r.pending.any fun f => decide (t < f.due ∧ f.due ≤ horizon)) = true ↔
      ∃ u, t < u ∧ u ≤ horizon ∧ r.dueFirings u ≠ [] := by
  unfold dueFirings
  simp only [List.any_eq_true, decide_eq_true_eq, ne_eq, List.filter_eq_nil_iff, not_forall, beq_iff_eq,
    not_not]
  constructor
  · rintro ⟨f, hf, ht, hdue⟩
    exact ⟨f.due, ht, hdue, f, hf, rfl⟩
  · rintro ⟨u, ht, hu, f, hf, rfl⟩
    exact ⟨f, hf, ht, hu⟩

/-- With valid facts, the test finds out whether a timestep in the range is awaited. -/
theorem hasPending_iff_awaits (hfacts : ∀ f ∈ r.facts, f.validate = .ok ()) :
    r.hasPending t horizon = true ↔ ∃ u, t < u ∧ u ≤ horizon ∧ r.Awaits u := by
  unfold hasPending
  rw [Bool.or_eq_true, List.any_eq_true, pending_any_iff]
  constructor
  · rintro (⟨f, hf, hpending⟩ | ⟨u, ht, hu, hdue⟩)
    · obtain ⟨u, ht, hu, hasks⟩ := (Fact.isPending_iff (hfacts f hf)).1 hpending
      exact ⟨u, ht, hu, .fact hf hasks⟩
    · exact ⟨u, ht, hu, .firings hdue⟩
  · rintro ⟨u, ht, hu, hawaits⟩
    cases hawaits with
    | fact hf hasks => exact .inl ⟨_, hf, (Fact.isPending_iff (hfacts _ hf)).2 ⟨u, ht, hu, hasks⟩⟩
    | firings hdue => exact .inr ⟨u, ht, hu, hdue⟩

/-- In every state, something is found to be pending after `t` and up to `horizon` just when one of these
timesteps is awaited: a fact that is not static is active there, a static one starts there, or firings are due
there. So there is no less to come after an earlier time, nor up to a farther horizon. A queue that is kept
by times need not be looked into: there are firings under every time that it lists. -/
theorem hasPending_exact {rules : Rule → Prop} {facts : Fact → Prop} (h : r.Reachable rules facts) :
    (∀ t horizon, r.hasPending t horizon = true ↔ ∃ u, t < u ∧ u ≤ horizon ∧ r.Awaits u) ∧
    (∀ t s horizon, t ≤ s → r.hasPending s horizon = true → r.hasPending t horizon = true) ∧
    (∀ t near far, near ≤ far → r.hasPending t near = true → r.hasPending t far = true) ∧
    (∃ q, r.HasAgenda q) ∧
    ∀ q, r.HasAgenda q →
      (∀ u, (q.get? u).getD [] = r.dueFirings u ∧ q.get? u ≠ some []) ∧
      ∀ t horizon,
        r.hasPending t horizon = (r.facts.any (·.isPending t horizon) || q.hasBetween t horizon) := by
  have hexact (t horizon : Nat) :
      r.hasPending t horizon = true ↔ ∃ u, t < u ∧ u ≤ horizon ∧ r.Awaits u :=
    hasPending_iff_awaits h.validFacts
  refine ⟨hexact, fun t s horizon hle => ?_, fun t near far => hasPending_mono,
    (kept_hasAgenda rules facts).reachable (fun hnew => ⟨_, .create hnew⟩) h,
    fun q hq => ⟨fun u => ⟨hq.lists.due u, hq.lists.nonempty u⟩, fun t horizon => ?_⟩⟩
  · rw [hexact, hexact]
    rintro ⟨u, hsu, hu⟩
    exact ⟨u, by omega, hu⟩
  · have hfirings : q.hasBetween t horizon
        = r.pending.any fun f => decide (t < f.due ∧ f.due ≤ horizon) := by
      rw [Bool.eq_iff_iff, hq.lists.hasBetween_iff, pending_any_iff]
      rfl
    unfold hasPending
    rw [hfirings]

/-- A fact until time `2`, a static fact from time `3` on and a rule with a delay of `5`. After the timestep
at `0`, the timesteps `2`, `3` and `5` are awaited, each for another reason, and the timestep `4` is not. -/
theorem hasPending_exact_gap :
    let lasting : Fact := ⟨"lasting", .node ⟨"a"⟩, ⟨"p"⟩, .certain, 0, 2, false, false⟩
    let static : Fact := ⟨"static", .node ⟨"a"⟩, ⟨"s"⟩, .certain, 3, 3, true, false⟩
    let rule := { Rule.simple .node "later" ⟨"q"⟩ with delay := 5 }
    ∃ new, create (Graph.empty.addNode ⟨"a"⟩) {} { Config.standard with timesteps := 0 } = .ok new ∧
      let r := (new.calls [.addRule rule, .addFact lasting, .addFact static, .reason]).1
      r.Reachable (fun _ => True) (fun _ => True) ∧ r.nextTime = 1 ∧
        (r.Awaits 2 ∧ r.Awaits 3 ∧ ¬ r.Awaits 4 ∧ r.Awaits 5) ∧
        ∃ q, r.HasAgenda q ∧ q.hasBetween 3 4 = false ∧ q.hasBetween 4 5 = true := by
  intro lasting static rule
  refine ⟨_, rfl, ?_⟩
  intro r
  have hr : r.Reachable (fun _ => True) fun _ => True :=
    (Reachable.create (show create (Graph.empty.addNode ⟨"a"⟩) {}
      { Config.standard with timesteps := 0 } = .ok _ from rfl)).calls (by simp [Call.Brings])
  have hnext : r.nextTime = 1 := by decide +kernel
  have hpending : r.hasPending 1 2 = true ∧ r.hasPending 2 3 = true ∧ r.hasPending 3 4 = false ∧
      r.hasPending 4 5 = true := by decide +kernel
  have hfacts : r.facts.any (·.isPending 4 5) = false := by decide +kernel
  clear_value r
  obtain ⟨hexact, -, -, ⟨q, hq⟩, hagenda⟩ := hasPending_exact hr
  have hone (u : Nat) : r.Awaits (u + 1) ↔ r.hasPending u (u + 1) = true := by
    rw [hexact]
    constructor
    · exact fun h => ⟨u + 1, by omega, by omega, h⟩
    · rintro ⟨v, hlt, hle, h⟩
      obtain rfl : v = u + 1 := by omega
      exact h
  obtain ⟨-, htest⟩ := hagenda q hq
  refine ⟨hr, hnext, ⟨(hone 1).2 hpending.1, (hone 2).2 hpending.2.1, fun h => ?_,
    (hone 4).2 hpending.2.2.2⟩, q, hq, ?_, ?_⟩
  · rw [hone 3, hpending.2.2.1] at h
    cases h
  · have hgap := htest 3 4
    rw [hpending.2.2.1, eq_comm, Bool.or_eq_false_iff] at hgap
    exact hgap.2
  · have hlater := htest 4 5
    rw [hpending.2.2.2, hfacts] at hlater
    exact hlater.symm

end Reasoner

end AnnotatedLogic
