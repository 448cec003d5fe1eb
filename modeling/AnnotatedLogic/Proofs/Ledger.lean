import AnnotatedLogic.Proofs.Sound
/-!
# Timesteps that have been completed

Calls that are not stopped complete one timestep after the other. What is so far known of a reasoner is
then a matter of the timesteps completed, in their order.

* `Reasoner.exit`: the interpretation that a completed timestep leaves.
* `reported?`: the conflict that the answer of a call tells of. A call that tells of none has completed
  all its timesteps (`completed_of_mem_callsStarts`).
* `Ledger`: a relation between completed timesteps and a reasoner that another completed timestep, or other
  rules and facts, do not break. Runs and calls that are not stopped keep it (`Ledger.runFrom`,
  `Ledger.call`), and it holds at the start of every timestep of theirs (`Ledger.callsStarts`).
-/

namespace AnnotatedLogic

namespace Reasoner

/-- The interpretation in which the next timestep leaves its loop, if it is completed. -/
def exit (r : Reasoner) : Interpretation := (r.timestep r.nextTime).1.interpretation

theorem exit_of_completed {r s : Reasoner} {progress : Progress}
    (h : r.timestep r.nextTime = (s, .ok progress)) : r.exit = s.interpretation := by
  unfold exit
  rw [h]

variable {r : Reasoner}

/-! ## Calls that are not stopped -/

/-- The conflict that the answer of a call tells of. -/
def reported? : Except Error (Option Report) → Option Conflict
  | .ok (some report) => report.halted
  | .ok none | .error _ => none

/-- The run of a call whose answer tells of no conflict was not stopped. -/
theorem runFrom_of_reported? {s : Reasoner} {c : Call} {more : Nat} (hsound : r.Sound)
    (hrun : r.runOf? c = some (s, more)) (h : reported? (r.call c).2 = none) :
    ∃ early, s.runFrom more s.nextTime = ((r.call c).1, .ok early) := by
  have hs : s.Sound := hsound.runOf? hrun
  rw [call_of_runOf? hrun] at h ⊢
  unfold run at h ⊢
  rcases hresult : s.runFrom more s.nextTime with ⟨u, (conflict | error) | early⟩ <;>
    rw [hresult] at h
  · cases h
  · exact (hs.runFrom more rfl (.failure error) (congrArg Prod.snd hresult)).elim
  · exact ⟨early, rfl⟩

/-- Calls that are not stopped complete all their timesteps. -/
theorem completed_of_mem_callsStarts (hsound : r.Sound) {cs : List Call}
    (hhalted : ∀ answer ∈ (r.calls cs).2, reported? answer = none) :
    ∀ s ∈ r.callsStarts cs, ∃ u progress, s.timestep s.nextTime = (u, .ok progress) := by
  induction cs generalizing r with
  | nil => simp [callsStarts]
  | cons c cs ih =>
    intro s hs
    rcases List.mem_append.1 hs with hs | hs
    · cases hrun : r.runOf? c with
      | none =>
        unfold callStarts at hs
        rw [hrun] at hs
        cases hs
      | some run =>
        rw [callStarts_of_runOf? hrun] at hs
        obtain ⟨early, hresult⟩ :=
          runFrom_of_reported? hsound hrun (hhalted _ (List.mem_cons_self ..))
        exact completed_of_mem_runStarts (congrArg Prod.snd hresult) s hs
    · exact ih (hsound.call c)
        (fun answer hanswer => hhalted answer (List.mem_cons_of_mem _ hanswer)) s hs

/-! ## Ledgers -/

/-- `P` relates the starts of the timesteps completed so far to the reasoner. Other rules, facts and
opposite labels do not break it, nor does a timestep that is completed and becomes one more of them. -/
structure Ledger (P : List Reasoner → Reasoner → Prop) : Prop where
  setup {before r} : P before r → ∀ rules facts pairing,
    P before { r with rules := rules, facts := facts, pairing := pairing }
  complete {before r s progress} : P before r → r.timestep r.nextTime = (s, .ok progress) →
    P (before ++ [r]) (s.complete r.nextTime)

namespace Ledger

variable {P : List Reasoner → Reasoner → Prop} {before : List Reasoner}

/-- The relation holds at the start of every timestep of a run. -/
theorem runStarts (hP : Ledger P) (h : P before r) (more : Nat) {earlier later : List Reasoner}
    {s : Reasoner} (hs : r.runStarts more = earlier ++ s :: later) : P (before ++ earlier) s := by
  induction more generalizing before r earlier with
  | zero =>
    cases earlier with
    | nil =>
      cases hs
      rwa [List.append_nil]
    | cons first earlier => simp [Reasoner.runStarts] at hs
  | succ more ih =>
    rw [Reasoner.runStarts] at hs
    cases earlier with
    | nil =>
      cases hs
      rwa [List.append_nil]
    | cons first earlier =>
      injection hs with hfirst hs
      subst hfirst
      cases hnext : r.next? more with
      | none =>
        rw [hnext] at hs
        simp at hs
      | some u =>
        rw [hnext] at hs
        obtain ⟨v, progress, hstep, rfl⟩ := next?_cases hnext
        rw [List.append_cons]
        exact ih (hP.complete h hstep) hs

/-- A run that is not stopped keeps the relation. -/
theorem runFrom (hP : Ledger P) (h : P before r) (more : Nat) {s : Reasoner} {early : Bool}
    (hrun : r.runFrom more r.nextTime = (s, .ok early)) : P (before ++ r.runStarts more) s := by
  have hends := r.runFrom_ends more
  rw [hrun] at hends
  cases hends with
  | early hstarts hstep | horizon hstarts hstep =>
    have hlast := hP.complete (hP.runStarts h more hstarts) hstep
    rwa [hstarts, ← List.append_assoc]

theorem runOf? (hP : Ledger P) (h : P before r) {c : Call} {s : Reasoner} {more : Nat}
    (hrun : r.runOf? c = some (s, more)) : P before s := by
  rw [runOf?_frame hrun]
  exact hP.setup h r.rules s.facts r.pairing

/-- A call that is not stopped keeps the relation. -/
theorem call (hP : Ledger P) (h : P before r) (hsound : r.Sound) {c : Call}
    (hhalted : reported? (r.call c).2 = none) : P (before ++ r.callStarts c) (r.call c).1 := by
  cases hrun : r.runOf? c with
  | none =>
    obtain ⟨rules, facts, pairing, hframe⟩ := call_frame hrun
    have hstarts : r.callStarts c = [] := by
      unfold callStarts
      rw [hrun]
    rw [hstarts, List.append_nil, hframe]
    exact hP.setup h rules facts pairing
  | some run =>
    obtain ⟨s, more⟩ := run
    obtain ⟨early, hresult⟩ := runFrom_of_reported? hsound hrun hhalted
    rw [callStarts_of_runOf? hrun]
    exact hP.runFrom (hP.runOf? h hrun) more hresult

/-- The relation holds at the start of every timestep of calls that are not stopped. -/
theorem callsStarts (hP : Ledger P) (h : P before r) (hsound : r.Sound) {cs : List Call}
    (hhalted : ∀ answer ∈ (r.calls cs).2, reported? answer = none) {earlier later : List Reasoner}
    {s : Reasoner} (hs : r.callsStarts cs = earlier ++ s :: later) : P (before ++ earlier) s := by
  induction cs generalizing before r earlier with
  | nil => simp [Reasoner.callsStarts] at hs
  | cons c cs ih =>
    have hfirst : reported? (r.call c).2 = none := hhalted _ (List.mem_cons_self ..)
    have hrest {earlier : List Reasoner}
        (hs : (r.call c).1.callsStarts cs = earlier ++ s :: later) :
        P (before ++ r.callStarts c ++ earlier) s :=
      ih (hP.call h hsound hfirst) (hsound.call c)
        (fun answer hanswer => hhalted answer (List.mem_cons_of_mem _ hanswer)) hs
    rw [Reasoner.callsStarts] at hs
    rcases List.append_eq_append_iff.1 hs with ⟨others, rfl, hothers⟩ | ⟨others, hcall, hothers⟩
    · rw [← List.append_assoc]
      exact hrest hothers
    · cases others with
      | nil =>
        have hlast : P (before ++ r.callStarts c ++ []) s := hrest hothers.symm
        rwa [List.append_nil, hcall, List.append_nil] at hlast
      | cons first others =>
        cases hothers
        cases hrun : r.runOf? c with
        | none =>
          unfold callStarts at hcall
          rw [hrun] at hcall
          simp at hcall
        | some run =>
          rw [callStarts_of_runOf? hrun] at hcall
          exact hP.runStarts (hP.runOf? h hrun) run.2 hcall

end Ledger

end Reasoner

end AnnotatedLogic
