import AnnotatedLogic.Proofs.Calls
import AnnotatedLogic.Proofs.Horizon
/-!
# The timesteps of runs and calls

A run is known by the states in which it starts its timesteps: each timestep leads to the start of the
next one, and the last one to the state in which the run ends.

* `runOf?`: the run that a call comes down to, if it comes down to one; `call_of_runOf?` says that
  the call does what the run does.
* `next?`: the start of the next timestep, if the run goes on.
* `runStarts`, `callStarts`, `callsStarts`: the states in which timesteps start.
* `runStarts_invariant`, `Kept.runStarts`, `Kept.callStarts`, `Kept.callsStarts`: what holds at the start of
  every timestep.
* `Ends`, `runFrom_ends`: how a run ends, from the start of its last timestep.
-/

namespace AnnotatedLogic

namespace Reasoner

/-- The run that a call comes down to: the state it starts in and how many timesteps it may compute
after the first. Calls that are refused or ask for no timestep run over none. -/
def runOf? (r : Reasoner) : Call → Option (Reasoner × Nat)
  | .reason => some (r, r.config.timesteps)
  | .reasonAgain extra facts =>
    match r.addFacts facts, extra with
    | (s, none), more + 1 => some (s, more)
    | _, _ => none
  | .addRule _ | .addFact _ | .setPairing _ => none

/-- The start of the next timestep of a run that may compute `more + 1` timesteps after this one, if the
run goes on. -/
def next? (r : Reasoner) (more : Nat) : Option Reasoner :=
  match r.timestep r.nextTime with
  | (_, .error _) => none
  | (s, .ok progress) =>
    if !(s.complete r.nextTime).hasPending r.nextTime (r.nextTime + more + 1)
        && progress.settled (s.complete r.nextTime).config.convergence then none
    else some (s.complete r.nextTime)

/-- The states in which a run starts its timesteps, up to the one that stops it or ends it. -/
def runStarts (r : Reasoner) : Nat → List Reasoner
  | 0 => [r]
  | more + 1 =>
    r :: match r.next? more with
      | none => []
      | some s => s.runStarts more

/-- The states in which a call starts its timesteps. -/
def callStarts (r : Reasoner) (c : Call) : List Reasoner :=
  match r.runOf? c with
  | some (s, more) => s.runStarts more
  | none => []

/-- The states in which calls start their timesteps. -/
def callsStarts (r : Reasoner) : List Call → List Reasoner
  | [] => []
  | c :: cs => r.callStarts c ++ (r.call c).1.callsStarts cs

/-! ## Calls and their runs -/

/-- Facts are added to a reasoner, and nothing else changes. -/
theorem addFacts_frame (r : Reasoner) (facts : List Fact) :
    (r.addFacts facts).1 = { r with facts := (r.addFacts facts).1.facts } := by
  induction facts generalizing r with
  | nil => rfl
  | cons fact facts ih =>
    unfold addFacts addFact
    cases (fact.shift r.nextTime).validate with
    | error error => rfl
    | ok u => exact ih { r with facts := r.facts ++ [fact.shift r.nextTime] }

/-- The run of a call starts where the call does; it may know more facts. -/
theorem runOf?_frame {r s : Reasoner} {c : Call} {more : Nat} (h : r.runOf? c = some (s, more)) :
    s = { r with facts := s.facts } := by
  unfold runOf? at h
  split at h
  · cases h
    rfl
  · next extra facts =>
    have hframe := r.addFacts_frame facts
    split at h
    · next heq =>
      cases h
      rw [heq] at hframe
      exact hframe
    · cases h
  all_goals cases h

/-- A call does what its run does. -/
theorem call_of_runOf? {r s : Reasoner} {c : Call} {more : Nat}
    (h : r.runOf? c = some (s, more)) :
    r.call c = ((s.run more).1, (s.run more).2.map some) := by
  unfold runOf? at h
  split at h
  · cases h
    rfl
  · split at h
    · next heq =>
      cases h
      unfold call reasonAgain
      simp only [heq]
    · cases h
  all_goals cases h

/-- Without a timestep to run over, further facts are all there is to a call. -/
theorem call_reasonAgain {r : Reasoner} {extra : Nat} {facts : List Fact}
    (h : r.runOf? (.reasonAgain extra facts) = none) :
    r.call (.reasonAgain extra facts) =
      ((r.addFacts facts).1,
        match (r.addFacts facts).2 with
        | some error => .error error
        | none => .ok (some ((r.addFacts facts).1.report false none))) := by
  unfold runOf? at h
  unfold call reasonAgain
  rcases hadd : r.addFacts facts with ⟨s, _ | error⟩
  · cases extra with
    | zero =>
      simp only [hadd]
      rfl
    | succ more =>
      simp only [hadd] at h
      cases h
  · simp only [hadd]
    rfl

/-- A call that runs over no timestep reports no conflict and no early end. -/
theorem call_of_runOf?_eq_none {r : Reasoner} {c : Call} (h : r.runOf? c = none) {report : Report}
    (hreport : (r.call c).2 = .ok (some report)) :
    report.convergedEarly = false ∧ report.halted = none := by
  cases c with
  | reason => cases h
  | reasonAgain extra facts =>
    rw [call_reasonAgain h] at hreport
    dsimp only at hreport
    split at hreport <;> cases hreport
    exact ⟨rfl, rfl⟩
  | addRule rule =>
    unfold call at hreport
    dsimp only at hreport
    split at hreport <;> cases hreport
  | addFact fact =>
    unfold call at hreport
    dsimp only at hreport
    split at hreport <;> cases hreport
  | setPairing pairing => cases hreport

/-- Such a call brings other rules, facts or opposite labels, and nothing else changes. -/
theorem call_frame {r : Reasoner} {c : Call} (h : r.runOf? c = none) :
    ∃ rules facts pairing,
      (r.call c).1 = { r with rules := rules, facts := facts, pairing := pairing } := by
  cases c with
  | reason => cases h
  | reasonAgain extra facts =>
    rw [call_reasonAgain h]
    dsimp only
    rw [addFacts_frame]
    exact ⟨r.rules, _, r.pairing, rfl⟩
  | addRule rule =>
    unfold call addRule
    dsimp only
    cases rule.validate with
    | error error => exact ⟨r.rules, r.facts, r.pairing, rfl⟩
    | ok u => exact ⟨_, r.facts, r.pairing, rfl⟩
  | addFact fact =>
    unfold call addFact
    dsimp only
    cases fact.validate with
    | error error => exact ⟨r.rules, r.facts, r.pairing, rfl⟩
    | ok u => exact ⟨r.rules, _, r.pairing, rfl⟩
  | setPairing pairing => exact ⟨r.rules, r.facts, _, rfl⟩

theorem callStarts_of_runOf? {r s : Reasoner} {c : Call} {more : Nat}
    (h : r.runOf? c = some (s, more)) : r.callStarts c = s.runStarts more := by
  unfold callStarts
  rw [h]

/-! ## From one timestep to the next -/

/-- The next timestep starts where this one is completed. -/
theorem next?_cases {r s : Reasoner} {more : Nat} (h : r.next? more = some s) :
    ∃ u progress, r.timestep r.nextTime = (u, .ok progress) ∧ s = u.complete r.nextTime := by
  unfold next? at h
  split at h
  · cases h
  · next u progress hstep =>
    split at h
    · cases h
    · cases h
      exact ⟨u, progress, hstep, rfl⟩

theorem runFrom_of_next? {r s : Reasoner} {more : Nat} (h : r.next? more = some s) :
    r.runFrom (more + 1) r.nextTime = s.runFrom more s.nextTime := by
  unfold next? at h
  split at h
  · cases h
  · next hstep =>
    split at h
    · cases h
    · next hgoes =>
      cases h
      rw [runFrom_succ hstep, if_neg hgoes]
      rfl

/-- A run that does not go on stops at a conflict, or it ends early and nothing is pending. -/
theorem runFrom_of_next?_eq_none {r : Reasoner} {more : Nat} (h : r.next? more = none) :
    (∃ s halt, r.timestep r.nextTime = (s, .error halt) ∧
        r.runFrom (more + 1) r.nextTime = (s, .error halt)) ∨
      ∃ s progress, r.timestep r.nextTime = (s, .ok progress) ∧
        (s.complete r.nextTime).hasPending r.nextTime (r.nextTime + more + 1) = false ∧
        r.runFrom (more + 1) r.nextTime = (s.complete r.nextTime, .ok true) := by
  unfold next? at h
  rcases hstep : r.timestep r.nextTime with ⟨s, halt | progress⟩
  · exact .inl ⟨s, halt, rfl, runFrom_of_error hstep _⟩
  · rw [hstep] at h
    dsimp only at h
    split at h
    · next hend =>
      refine .inr ⟨s, progress, rfl, ?_, ?_⟩
      · rw [Bool.and_eq_true, Bool.not_eq_true'] at hend
        exact hend.1
      · rw [runFrom_succ hstep, if_pos hend]
    · cases h

/-- What timesteps do not change: the configuration, the rules, the facts and the opposite labels. -/
structure SameSetup (r s : Reasoner) : Prop where
  config : s.config = r.config
  rules : s.rules = r.rules
  facts : s.facts = r.facts
  pairing : s.pairing = r.pairing

theorem sameSetup_timestep {r s : Reasoner} {t : Nat} {result : Except Halt Progress}
    (h : r.timestep t = (s, result)) : r.SameSetup s := by
  have hframe := r.timestep_frame t
  rw [h] at hframe
  dsimp only at hframe
  rw [hframe]
  exact ⟨rfl, rfl, rfl, rfl⟩

theorem next?_nextTime {r s : Reasoner} {more : Nat} (h : r.next? more = some s) :
    s.nextTime = r.nextTime + 1 := by
  obtain ⟨u, progress, -, rfl⟩ := next?_cases h
  rfl

/-- What leads from one timestep to the next holds at the start of every timestep. -/
theorem runStarts_invariant {P : Reasoner → Prop}
    (hnext : ∀ {r s more}, P r → r.next? more = some s → P s) {r : Reasoner} (hr : P r)
    (more : Nat) : ∀ s ∈ r.runStarts more, P s := by
  induction more generalizing r with
  | zero =>
    intro s hs
    rw [List.mem_singleton.1 hs]
    exact hr
  | succ more ih =>
    intro s hs
    rw [runStarts] at hs
    rcases List.mem_cons.1 hs with rfl | hs
    · exact hr
    · split at hs
      · cases hs
      · next hsome => exact ih (hnext hr hsome) s hs

theorem sameSetup_of_mem_runStarts {r s : Reasoner} {more : Nat} (h : s ∈ r.runStarts more) :
    r.SameSetup s := by
  refine runStarts_invariant (P := r.SameSetup) ?_ ⟨rfl, rfl, rfl, rfl⟩ more s h
  intro u v _ hu hnext
  obtain ⟨w, progress, hstep, rfl⟩ := next?_cases hnext
  have hv := sameSetup_timestep hstep
  exact ⟨hv.config.trans hu.config, hv.rules.trans hu.rules, hv.facts.trans hu.facts,
    hv.pairing.trans hu.pairing⟩

/-- What every call keeps holds at the start of every timestep. -/
theorem Kept.runStarts {rules : Rule → Prop} {facts : Fact → Prop} {P : Reasoner → Prop}
    (h : Kept rules facts P) {r : Reasoner} (hr : P r) (more : Nat) :
    ∀ s ∈ r.runStarts more, P s := by
  refine runStarts_invariant ?_ hr more
  intro s u _ hs hnext
  obtain ⟨v, progress, hstep, rfl⟩ := next?_cases hnext
  exact h.complete hs hstep

/-- A run starts in a state that its call leads to: only facts have been added. -/
theorem Kept.runOf? {rules : Rule → Prop} {facts : Fact → Prop} {P : Reasoner → Prop}
    (h : Kept rules facts P) {r s : Reasoner} (hr : P r) {c : Call} (hc : c.Brings rules facts)
    {more : Nat} (hrun : r.runOf? c = some (s, more)) : P s := by
  unfold Reasoner.runOf? at hrun
  split at hrun
  · cases hrun
    exact hr
  · have hadd := h.addFacts hr hc
    split at hrun
    · next heq =>
      cases hrun
      rw [heq] at hadd
      exact hadd
    · cases hrun
  all_goals cases hrun

theorem exists_run_of_mem_callStarts {r s : Reasoner} {c : Call} (h : s ∈ r.callStarts c) :
    ∃ u more, r.runOf? c = some (u, more) ∧ s ∈ u.runStarts more := by
  unfold callStarts at h
  split at h
  · next u more hrun => exact ⟨u, more, hrun, h⟩
  · cases h

/-- What every call keeps holds at the start of every timestep of a call. -/
theorem Kept.callStarts {rules : Rule → Prop} {facts : Fact → Prop} {P : Reasoner → Prop}
    (h : Kept rules facts P) {r s : Reasoner} (hr : P r) {c : Call} (hc : c.Brings rules facts)
    (hs : s ∈ r.callStarts c) : P s := by
  obtain ⟨u, more, hrun, hs⟩ := exists_run_of_mem_callStarts hs
  exact h.runStarts (h.runOf? hr hc hrun) more s hs

/-- What every call keeps holds at the start of every timestep of calls. -/
theorem Kept.callsStarts {rules : Rule → Prop} {facts : Fact → Prop} {P : Reasoner → Prop}
    (h : Kept rules facts P) {r : Reasoner} (hr : P r) {cs : List Call}
    (hcs : ∀ c ∈ cs, c.Brings rules facts) : ∀ s ∈ r.callsStarts cs, P s := by
  induction cs generalizing r with
  | nil => simp [Reasoner.callsStarts]
  | cons c cs ih =>
    have hc := hcs c (List.mem_cons_self ..)
    intro s hs
    rcases List.mem_append.1 hs with hs | hs
    · exact h.callStarts hr hc hs
    · exact ih (h.call hr hc) (fun d hd => hcs d (List.mem_cons_of_mem _ hd)) s hs

/-! ## How a run ends -/

/-- A run stops in its last timestep, or completes it and ends there: early if nothing is pending, or
at the horizon. -/
inductive Ends (r : Reasoner) (more : Nat) : Reasoner × Except Halt Bool → Prop where
  | stopped {earlier : List Reasoner} {last s : Reasoner} {halt : Halt}
      (hstarts : r.runStarts more = earlier ++ [last])
      (hstep : last.timestep last.nextTime = (s, .error halt)) : Ends r more (s, .error halt)
  | early {earlier : List Reasoner} {last s : Reasoner} {progress : Progress}
      (hstarts : r.runStarts more = earlier ++ [last])
      (hstep : last.timestep last.nextTime = (s, .ok progress))
      (hpending : (s.complete last.nextTime).hasPending last.nextTime (r.nextTime + more) = false) :
      Ends r more (s.complete last.nextTime, .ok true)
  | horizon {earlier : List Reasoner} {last s : Reasoner} {progress : Progress}
      (hstarts : r.runStarts more = earlier ++ [last])
      (hstep : last.timestep last.nextTime = (s, .ok progress)) :
      Ends r more (s.complete last.nextTime, .ok false)

/-- A run ends as its part after the first timestep does. -/
theorem Ends.of_next? {r s : Reasoner} {more : Nat} {result : Reasoner × Except Halt Bool}
    (h : s.Ends more result) (hnext : r.next? more = some s) : r.Ends (more + 1) result := by
  have hcons {earlier : List Reasoner} {last : Reasoner}
      (heq : s.runStarts more = earlier ++ [last]) :
      r.runStarts (more + 1) = (r :: earlier) ++ [last] := by
    rw [runStarts, hnext]
    dsimp only
    rw [heq]
    rfl
  cases h with
  | stopped heq hstep => exact .stopped (hcons heq) hstep
  | early heq hstep hpending =>
    refine .early (hcons heq) hstep ?_
    rwa [next?_nextTime hnext, Nat.add_right_comm, Nat.add_assoc] at hpending
  | horizon heq hstep => exact .horizon (hcons heq) hstep

/-- Every run ends in one of the three ways. -/
theorem runFrom_ends (r : Reasoner) (more : Nat) : r.Ends more (r.runFrom more r.nextTime) := by
  induction more generalizing r with
  | zero =>
    have hstarts : r.runStarts 0 = [] ++ [r] := rfl
    rcases hstep : r.timestep r.nextTime with ⟨s, halt | progress⟩
    · rw [runFrom_of_error hstep]
      exact .stopped hstarts hstep
    · rw [runFrom_zero hstep]
      exact .horizon hstarts hstep
  | succ more ih =>
    cases hnext : r.next? more with
    | some s =>
      rw [runFrom_of_next? hnext]
      exact (ih s).of_next? hnext
    | none =>
      have hstarts : r.runStarts (more + 1) = [] ++ [r] := by
        rw [runStarts, hnext]
        rfl
      rcases runFrom_of_next?_eq_none hnext with
        ⟨s, halt, hstep, hrun⟩ | ⟨s, progress, hstep, hpending, hrun⟩
      · rw [hrun]
        exact .stopped hstarts hstep
      · rw [hrun]
        exact .early hstarts hstep hpending

/-- A run that is not stopped completes all its timesteps. -/
theorem completed_of_mem_runStarts {r : Reasoner} {more : Nat} {early : Bool}
    (hrun : (r.runFrom more r.nextTime).2 = .ok early) :
    ∀ s ∈ r.runStarts more, ∃ u progress, s.timestep s.nextTime = (u, .ok progress) := by
  induction more generalizing r with
  | zero =>
    intro s hs
    obtain rfl := List.mem_singleton.1 hs
    rcases hstep : s.timestep s.nextTime with ⟨u, halt | progress⟩
    · rw [runFrom_of_error hstep] at hrun
      cases hrun
    · exact ⟨u, progress, rfl⟩
  | succ more ih =>
    intro s hs
    rw [runStarts] at hs
    rcases List.mem_cons.1 hs with rfl | hs
    · rcases hstep : s.timestep s.nextTime with ⟨u, halt | progress⟩
      · rw [runFrom_of_error hstep] at hrun
        cases hrun
      · exact ⟨u, progress, rfl⟩
    · cases hnext : r.next? more with
      | none =>
        rw [hnext] at hs
        cases hs
      | some u =>
        rw [hnext] at hs
        rw [runFrom_of_next? hnext] at hrun
        exact ih hrun s hs

end Reasoner

end AnnotatedLogic
