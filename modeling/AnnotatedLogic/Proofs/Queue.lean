import AnnotatedLogic.Proofs.Ledger
/-!
# The queue of firings

Every completed timestep schedules its firings once, and each firing is spent in the timestep in which it
is due. So the queue is at any time what the timesteps so far have scheduled, less what is over.

* `pending_due`: no firing is overdue, in whatever state.
* `Reasoner.scheduled`: what a timestep schedules.
* `Accounts`: a list of completed timesteps accounts for the queue. A timestep that is completed is one
  more of them (`Accounts.complete`), so calls keep their accounts.
* `firings_accounted`: what is due at a timestep, by the timesteps that scheduled it.
-/

namespace AnnotatedLogic

namespace Reasoner

/-- The firings that are due at a timestep. -/
def dueFirings (r : Reasoner) (t : Nat) : List Firing := r.pending.filter (·.due == t)

/-- The firings that the next timestep schedules when it is completed. -/
def scheduled (r : Reasoner) : List Firing := r.delayedFirings r.nextTime r.exit

/-! ## No firing is overdue -/

/-- A firing is due after the timestep that schedules it. -/
theorem lt_due_of_mem_delayedFirings {r : Reasoner} {t : Nat} {i : Interpretation} {f : Firing}
    (h : f ∈ r.delayedFirings t i) : t < f.due := by
  obtain ⟨rule, hrule, hf⟩ := List.mem_flatMap.1 h
  obtain ⟨g, -, rfl⟩ := List.mem_map.1 hf
  have hdelay : rule.delay ≠ 0 := by simpa using (List.mem_filter.1 hrule).2
  show t < t + rule.delay
  omega

/-- A completed timestep has spent what was due and has scheduled its firings. -/
theorem pending_of_completed {r s : Reasoner} {t : Nat} {progress : Progress}
    (h : r.timestep t = (s, .ok progress)) :
    s.pending = r.pending.filter (·.due != t) ++ r.delayedFirings t s.interpretation := by
  have hpassage := r.timestep_passage t
  rw [h] at hpassage
  cases hpassage
  rfl

/-- A timestep adds firings only when it is completed. -/
theorem mem_pending_timestep {r : Reasoner} {t : Nat} {f : Firing}
    (h : f ∈ (r.timestep t).1.pending) :
    f ∈ r.pending ∨ f ∈ r.delayedFirings t (r.timestep t).1.interpretation := by
  have hpassage := r.timestep_passage t
  generalize r.timestep t = result at h hpassage
  cases hpassage with
  | facts => exact .inl h
  | due | loop => exact .inl (List.mem_filter.1 h).1
  | completed =>
    rcases List.mem_append.1 h with h | h
    · exact .inl (List.mem_filter.1 h).1
    · exact .inr h

theorem kept_due (rules : Rule → Prop) (facts : Fact → Prop) :
    Kept rules facts fun r => ∀ f ∈ r.pending, r.nextTime ≤ f.due where
  timestep {r} h f hf := by
    rw [timestep_nextTime]
    rcases mem_pending_timestep hf with hf | hf
    · exact h f hf
    · exact Nat.le_of_lt (lt_due_of_mem_delayedFirings hf)
  complete {r s progress} h hs f hf := by
    have hf' : f ∈ s.pending := hf
    rw [pending_of_completed hs] at hf'
    show r.nextTime + 1 ≤ f.due
    rcases List.mem_append.1 hf' with hf' | hf'
    · obtain ⟨hmem, hne⟩ := List.mem_filter.1 hf'
      have hle := h f hmem
      have hne' : f.due ≠ r.nextTime := by simpa using hne
      omega
    · exact lt_due_of_mem_delayedFirings hf'
  addRule h _ _ := h
  addFact h _ _ _ := h
  setPairing h _ := h

/-- No firing is overdue. -/
theorem pending_due {rules : Rule → Prop} {facts : Fact → Prop} {r : Reasoner}
    (h : r.Reachable rules facts) : ∀ f ∈ r.pending, r.nextTime ≤ f.due := by
  refine (kept_due rules facts).reachable (fun hnew => ?_) h
  unfold create at hnew
  split at hnew <;> cases hnew
  simp

/-! ## Accounts -/

/-- The timesteps with these starts have been completed, and what they have scheduled accounts for the
queue. -/
structure Accounts (before : List Reasoner) (r : Reasoner) : Prop where
  times : before.map (·.nextTime) = List.range r.nextTime
  queue : r.pending = (before.flatMap scheduled).filter fun f => decide (r.nextTime ≤ f.due)

variable {before : List Reasoner} {r : Reasoner}

/-- A timestep that is completed is one more of those that account for the queue. -/
theorem Accounts.complete {s : Reasoner} {progress : Progress} (h : Accounts before r)
    (hstep : r.timestep r.nextTime = (s, .ok progress)) :
    Accounts (before ++ [r]) (s.complete r.nextTime) := by
  have hnext : (s.complete r.nextTime).nextTime = r.nextTime + 1 := rfl
  have hexit : r.exit = s.interpretation := exit_of_completed hstep
  refine ⟨?_, ?_⟩
  · rw [List.map_append, h.times, hnext, List.range_succ]
    rfl
  · have hnew : r.scheduled.filter (fun f => decide (r.nextTime + 1 ≤ f.due)) = r.scheduled :=
      List.filter_eq_self.2 fun f hf => decide_eq_true (lt_due_of_mem_delayedFirings hf)
    have hold : (fun f : Firing => f.due != r.nextTime && decide (r.nextTime ≤ f.due))
        = fun f => decide (r.nextTime + 1 ≤ f.due) := by
      funext f
      rw [Bool.eq_iff_iff]
      simp
      omega
    show s.pending = _
    rw [pending_of_completed hstep, h.queue, List.filter_filter, hold, hnext, List.flatMap_append,
      List.filter_append, List.flatMap_singleton, hnew, ← hexit]
    rfl

theorem ledger_accounts : Ledger Accounts where
  setup h _ _ _ := ⟨h.times, h.queue⟩
  complete h hstep := h.complete hstep

/-- The timesteps of calls account for the queue at the start of any later one. -/
theorem Accounts.callsStarts (h : Accounts before r) (hsound : r.Sound) {cs : List Call}
    (hhalted : ∀ answer ∈ (r.calls cs).2, reported? answer = none) {earlier later : List Reasoner}
    {s : Reasoner} (hs : r.callsStarts cs = earlier ++ s :: later) :
    Accounts (before ++ earlier) s :=
  ledger_accounts.callsStarts h hsound hhalted hs

/-! ## What is due -/

/-- The firings of one rule are all due at once. -/
theorem filter_firings (rule : Rule) (groundings : List Grounding) (due t : Nat) :
    (groundings.map fun g => (⟨due, rule, g⟩ : Firing)).filter (·.due == t) =
      if due = t then groundings.map fun g => ⟨t, rule, g⟩ else [] := by
  split
  · next heq =>
    subst heq
    simp
  · next hne => simp [List.filter_map, hne]

/-- What a timestep schedules for another one: the groundings of the rules that fire just then. -/
theorem filter_scheduled (r : Reasoner) (t : Nat) :
    r.scheduled.filter (·.due == t) =
      (r.rules.filter fun rule => decide (rule.delay ≠ 0 ∧ r.nextTime + rule.delay = t)).flatMap
        fun rule => (rule.ground r.exit r.config).map fun g => ⟨t, rule, g⟩ := by
  unfold scheduled delayedFirings
  rw [List.filter_flatMap]
  simp only [filter_firings]
  induction r.rules with
  | nil => rfl
  | cons rule rules ih =>
    by_cases hdelay : rule.delay = 0
    · simpa [hdelay] using ih
    · by_cases hdue : r.nextTime + rule.delay = t
      · simpa [hdelay, hdue] using ih
      · simpa [hdelay, hdue] using ih

/-- What is due when a timestep starts, by the timesteps that have scheduled it. -/
theorem Accounts.dueFirings (h : Accounts before r) :
    r.dueFirings r.nextTime =
      before.flatMap fun s =>
        (s.rules.filter fun rule => decide (rule.delay ≠ 0 ∧ s.nextTime + rule.delay = r.nextTime)).flatMap
          fun rule => (rule.ground s.exit s.config).map fun g => ⟨r.nextTime, rule, g⟩ := by
  have hdue : (fun f : Firing => f.due == r.nextTime && decide (r.nextTime ≤ f.due))
      = fun f => f.due == r.nextTime := by
    funext f
    rw [Bool.eq_iff_iff]
    simp
    omega
  unfold Reasoner.dueFirings
  rw [h.queue, List.filter_filter, hdue, List.filter_flatMap]
  simp only [filter_scheduled]

theorem accounts_create {graph : Graph} {labelling : Labelling} {config : Config}
    (h : create graph labelling config = .ok r) : Accounts [] r := by
  unfold create at h
  split at h <;> cases h
  exact ⟨rfl, rfl⟩

/-- In every state, no firing is overdue. And whatever calls are made of a new reasoner, as long as no
answer tells of a conflict: the timesteps before one that is computed are all those before its time,
each of which has left its loop in the interpretation `exit`. What is due in it are the groundings
there of the rules that fire just then, timestep after timestep and rule after rule, each once. And
the effects of all these firings are carried out. -/
theorem firings_accounted {rules : Rule → Prop} {facts : Fact → Prop} :
    (∀ {r : Reasoner}, r.Reachable rules facts → ∀ f ∈ r.pending, r.nextTime ≤ f.due) ∧
    ∀ {graph : Graph} {labelling : Labelling} {config : Config} {r : Reasoner},
      create graph labelling config = .ok r → ∀ cs : List Call,
      (∀ answer ∈ (r.calls cs).2, reported? answer = none) →
      ∀ earlier s later, r.callsStarts cs = earlier ++ s :: later →
        earlier.map (·.nextTime) = List.range s.nextTime ∧
        (∀ u ∈ earlier, ∃ last, (u.timestepPasses u.nextTime).getLast? = some last ∧
          last.halt = none ∧ u.exit = last.after.interpretation) ∧
        s.dueFirings s.nextTime =
          (earlier.flatMap fun u =>
            (u.rules.filter fun rule =>
              decide (rule.delay ≠ 0 ∧ u.nextTime + rule.delay = s.nextTime)).flatMap fun rule =>
                (rule.ground u.exit u.config).map fun g => ⟨s.nextTime, rule, g⟩) ∧
        ∃ v w, (s.startWork s.nextTime).performAll s.config s.pairing (s.factEffects s.nextTime)
            = (v, none) ∧
          v.performAll s.config s.pairing
            ((s.dueFirings s.nextTime).flatMap fun f => f.rule.effects s.nextTime 0 f.grounding)
              = (w, none) := by
  refine ⟨pending_due, fun {graph labelling config r} hr cs hhalted earlier s later hs => ?_⟩
  have hsound : r.Sound := sound_create hr
  have haccounts := (accounts_create hr).callsStarts hsound hhalted hs
  rw [List.nil_append] at haccounts
  have hcompleted := completed_of_mem_callsStarts hsound hhalted
  rw [hs] at hcompleted
  refine ⟨haccounts.times, fun u hu => ?_, haccounts.dueFirings, ?_⟩
  · obtain ⟨v, progress, hstep⟩ := hcompleted u (List.mem_append_left _ hu)
    obtain ⟨last, hlast, hhalt, hexit, -⟩ := timestep_last hstep
    refine ⟨last, hlast, hhalt, ?_⟩
    unfold exit
    rw [hstep, hexit]
  · obtain ⟨u, progress, hstep⟩ := hcompleted s (by simp)
    have hpassage := s.timestep_passage s.nextTime
    rw [hstep] at hpassage
    cases hpassage with
    | completed hfacts hdue => exact ⟨_, _, hfacts, hdue⟩

/-- A rule with a delay of `1` on one node: what is due in the second timestep is its grounding in the
first one. -/
theorem firings_accounted_one_rule :
    let rule := Rule.simple .node "r" ⟨"p"⟩
    let cs : List Call := [.addRule rule, .reasonAgain 2 []]
    ∃ new, create (Graph.empty.addNode ⟨"a"⟩) {} .standard = .ok new ∧
      let answers := (new.calls cs).2
      let starts := new.callsStarts cs
      (∀ answer ∈ answers, reported? answer = none) ∧
      ∃ u s : Reasoner, starts = [u, s] ∧ s.nextTime = 1 ∧ s.dueFirings s.nextTime ≠ [] ∧
        s.dueFirings s.nextTime
          = (rule.ground u.exit u.config).map fun g => ⟨s.nextTime, rule, g⟩ := by
  intro rule cs
  refine ⟨_, rfl, ?_⟩
  intro answers starts
  have hhalted : ∀ answer ∈ answers, reported? answer = none := by decide +kernel
  have htwo : starts.map (fun s => (s.nextTime, s.rules, (s.dueFirings s.nextTime).length))
      = [(0, [rule], 0), (1, [rule], 1)] := by decide +kernel
  obtain ⟨u, others, hstarts, hu, hothers⟩ := List.map_eq_cons_iff.1 htwo
  obtain ⟨s, rest, rfl, hs, hrest⟩ := List.map_eq_cons_iff.1 hothers
  obtain rfl := List.map_eq_nil_iff.1 hrest
  have hnew : create (Graph.empty.addNode ⟨"a"⟩) {} .standard = .ok _ := rfl
  obtain ⟨-, -, hdue, -⟩ :=
    (@firings_accounted (fun _ => True) fun _ => True).2 hnew cs hhalted [u] s [] hstarts
  simp only [Prod.mk.injEq] at hu hs
  refine ⟨hhalted, u, s, hstarts, hs.1, fun hnil => ?_, ?_⟩
  · simp [hnil] at hs
  · rw [hdue, List.flatMap_singleton, hu.1, hu.2.1, hs.1]
    simp [rule, Rule.simple]

end Reasoner

end AnnotatedLogic
