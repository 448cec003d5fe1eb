import AnnotatedLogic.Proofs.Lockstep
import AnnotatedLogic.Proofs.Sound
/-!
# Policies

Up to the first conflict, calls under different policies are one and the same call.

* `Reasoner.withPolicy`: the same reasoner under another policy.
* `timestep_lockstep`, `runFrom_lockstep`, `call_lockstep`: timesteps, runs and calls under the abort
  policy keep step with those under another one.
* `call_policies`: what this says of all policies.
-/

namespace AnnotatedLogic

/-! ## Timesteps -/

theorem Rule.stage_withPolicy (r : Rule) (c : Config) (p : Policy) (t iteration : Nat) :
    r.stage (c.withPolicy p) t iteration = r.stage c t iteration := by
  funext i
  unfold Rule.stage
  rw [Rule.ground_eq, Rule.ground_eq]
  rfl

namespace Reasoner

/-- The same reasoner under another policy. -/
def withPolicy (r : Reasoner) (p : Policy) : Reasoner := { r with config := r.config.withPolicy p }

variable {r : Reasoner} {t : Nat}

theorem stages_withPolicy (r : Reasoner) (p : Policy) (t iteration : Nat) :
    (r.withPolicy p).stages t iteration = r.stages t iteration := by
  have hstage (rule : Rule) :
      rule.stage (r.config.withPolicy p) t iteration = rule.stage r.config t iteration :=
    rule.stage_withPolicy ..
  unfold stages withPolicy
  simp only [hstage]

theorem delayedFirings_withPolicy (r : Reasoner) (p : Policy) (t : Nat) (i : Interpretation) :
    (r.withPolicy p).delayedFirings t i = r.delayedFirings t i := by
  have hground (rule : Rule) : rule.ground i (r.config.withPolicy p) = rule.ground i r.config := by
    rw [Rule.ground_eq, Rule.ground_eq]
    rfl
  unfold delayedFirings withPolicy
  simp only [hground]

theorem iterate_lockstep (hp : r.config.policy = .abort) (p : Policy) (iteration : Nat) (w : Work) :
    Lockstep r.pairing ((r.withPolicy p).iterate t iteration w = r.iterate t iteration w)
      (fun a c => a.StopsWork c (r.iterate t iteration w)) (r.iterateAttempts t iteration w)
      ((r.withPolicy p).iterateAttempts t iteration w) := by
  unfold iterateAttempts iterate
  rw [stages_withPolicy]
  exact foldUntil_lockstep
    (fun w stage => w.performAll_lockstep hp p (stage w.interpretation)) w _

theorem fixpoint_lockstep (hp : r.config.policy = .abort) (p : Policy) (more iteration : Nat)
    (w : Work) :
    Lockstep r.pairing
      ((r.withPolicy p).fixpoint t more iteration w = r.fixpoint t more iteration w)
      (fun a c => a.StopsWork c (r.fixpoint t more iteration w))
      (r.loopAttempts t more iteration w) ((r.withPolicy p).loopAttempts t more iteration w) := by
  have hpass {iteration : Nat} {w : Work}
      (hsame : (r.withPolicy p).iterate t iteration { w with progress := .nothing }
        = r.iterate t iteration { w with progress := .nothing }) :
      (r.withPolicy p).pass t iteration w = r.pass t iteration w := by
    unfold pass
    rw [hsame]
  induction more generalizing iteration w with
  | zero =>
    rw [loopAttempts_zero, loopAttempts_zero, fixpoint_zero, fixpoint_zero]
    exact (iterate_lockstep hp p iteration { w with progress := .nothing }).map
      (fun hsame => by rw [hpass hsame]) (fun a c hstops => hstops)
  | succ more ih =>
    rw [loopAttempts_succ, loopAttempts_succ, fixpoint_succ, fixpoint_succ]
    refine (iterate_lockstep hp p iteration { w with progress := .nothing }).append
      (fun hsame => ?_) (fun a c hstops => ?_)
    · rw [hpass hsame, show (r.withPolicy p).goesOn (r.pass t iteration w)
        = r.goesOn (r.pass t iteration w) from rfl]
      split
      · exact ih (iteration + 1) ((r.pass t iteration w).total w)
      · exact .nil rfl
    · have hstopped : r.goesOn (r.pass t iteration w) = false := by
        unfold goesOn
        rw [show (r.pass t iteration w).halt = some (.conflict c) from hstops.1]
        rfl
      rw [hstopped]
      exact ⟨rfl, hstops⟩

/-- The loop of a timestep, and with it the timestep, keeps step. -/
theorem timestep_lockstep_loop (hp : r.config.policy = .abort) (p : Policy) {u v : Work}
    (hfacts : (r.startWork t).performAll r.config r.pairing (r.factEffects t) = (u, none))
    (hfacts' : (r.startWork t).performAll (r.config.withPolicy p) r.pairing (r.factEffects t)
      = (u, none))
    (hdue : u.performAll r.config r.pairing (r.dueEffects t) = (v, none))
    (hdue' : u.performAll (r.config.withPolicy p) r.pairing (r.dueEffects t) = (v, none)) :
    Lockstep r.pairing
      ((r.withPolicy p).timestep t = ((r.timestep t).1.withPolicy p, (r.timestep t).2))
      (fun a c => a.StopsRun c (r.timestep t)) (r.loopAttempts t (r.config.maxIterations - 1) 1 v)
      ((r.withPolicy p).loopAttempts t (r.config.maxIterations - 1) 1 v) := by
  refine (fixpoint_lockstep hp p (r.config.maxIterations - 1) 1 v).map (fun hsame => ?_)
    (fun a c hstops => ?_)
  · rcases hloop : r.fixpoint t (r.config.maxIterations - 1) 1 v with ⟨w, _ | halt⟩
    · have hdone := Passage.completed (r := r.withPolicy p) hfacts' hdue' (hsame.trans hloop)
      rw [delayedFirings_withPolicy] at hdone
      rw [hdone.eq, (Passage.completed hfacts hdue hloop).eq]
      rfl
    · rw [(Passage.loop (r := r.withPolicy p) hfacts' hdue' (hsame.trans hloop)).eq,
        (Passage.loop hfacts hdue hloop).eq]
      rfl
  · rcases hloop : r.fixpoint t (r.config.maxIterations - 1) 1 v with ⟨w, _ | halt⟩ <;>
      rw [hloop] at hstops
    · cases hstops.1
    · cases hstops.1
      rw [(Passage.loop hfacts hdue hloop).eq]
      exact ⟨rfl, hstops.2⟩

/-- The firings that are due, and with them the rest of the timestep, keep step. -/
theorem timestep_lockstep_due (hp : r.config.policy = .abort) (p : Policy) {u : Work}
    (hfacts : (r.startWork t).performAll r.config r.pairing (r.factEffects t) = (u, none))
    (hfacts' : (r.startWork t).performAll (r.config.withPolicy p) r.pairing (r.factEffects t)
      = (u, none)) :
    Lockstep r.pairing
      ((r.withPolicy p).timestep t = ((r.timestep t).1.withPolicy p, (r.timestep t).2))
      (fun a c => a.StopsRun c (r.timestep t)) (r.attemptsAfterFacts t u)
      ((r.withPolicy p).attemptsAfterFacts t u) := by
  refine (u.performAll_lockstep hp p (r.dueEffects t)).append (fun hsame => ?_)
    (fun a c hstops => ?_)
  · rw [show u.performAll (r.withPolicy p).config (r.withPolicy p).pairing
      ((r.withPolicy p).dueEffects t) = u.performAll r.config r.pairing (r.dueEffects t) from hsame]
    rcases hdue : u.performAll r.config r.pairing (r.dueEffects t) with ⟨v, _ | halt⟩
    · exact timestep_lockstep_loop hp p hfacts hfacts' hdue (hsame.trans hdue)
    · refine .nil ?_
      rw [(Passage.due (r := r.withPolicy p) hfacts' (hsame.trans hdue)).eq,
        (Passage.due hfacts hdue).eq]
      rfl
  · rcases hdue : u.performAll r.config r.pairing (r.dueEffects t) with ⟨v, _ | halt⟩ <;>
      rw [hdue] at hstops
    · cases hstops.1
    · cases hstops.1
      rw [(Passage.due hfacts hdue).eq]
      exact ⟨rfl, rfl, hstops.2⟩

/-- Under the abort policy and under another one, a timestep attempts the same up to the first
conflict. -/
theorem timestep_lockstep (hp : r.config.policy = .abort) (p : Policy) (t : Nat) :
    Lockstep r.pairing
      ((r.withPolicy p).timestep t = ((r.timestep t).1.withPolicy p, (r.timestep t).2))
      (fun a c => a.StopsRun c (r.timestep t)) (r.attempts t) ((r.withPolicy p).attempts t) := by
  refine ((r.startWork t).performAll_lockstep hp p (r.factEffects t)).append (fun hsame => ?_)
    (fun a c hstops => ?_)
  · rw [show ((r.withPolicy p).startWork t).performAll (r.withPolicy p).config
      (r.withPolicy p).pairing ((r.withPolicy p).factEffects t)
        = (r.startWork t).performAll r.config r.pairing (r.factEffects t) from hsame]
    rcases hfacts : (r.startWork t).performAll r.config r.pairing (r.factEffects t)
      with ⟨u, _ | halt⟩
    · exact timestep_lockstep_due hp p hfacts (hsame.trans hfacts)
    · refine .nil ?_
      rw [(Passage.facts (r := r.withPolicy p) (hsame.trans hfacts)).eq, (Passage.facts hfacts).eq]
      rfl
  · rcases hfacts : (r.startWork t).performAll r.config r.pairing (r.factEffects t)
      with ⟨u, _ | halt⟩ <;> rw [hfacts] at hstops
    · cases hstops.1
    · cases hstops.1
      rw [(Passage.facts hfacts).eq]
      exact ⟨rfl, rfl, hstops.2⟩

/-! ## Runs -/

theorem next?_withPolicy {p : Policy} {more : Nat}
    (h : (r.withPolicy p).timestep r.nextTime
      = ((r.timestep r.nextTime).1.withPolicy p, (r.timestep r.nextTime).2)) :
    (r.withPolicy p).next? more = (r.next? more).map (·.withPolicy p) := by
  unfold next?
  rw [show (r.withPolicy p).nextTime = r.nextTime from rfl, h]
  rcases r.timestep r.nextTime with ⟨s, halt | progress⟩
  · rfl
  · dsimp only
    rw [show ((s.withPolicy p).complete r.nextTime).hasPending r.nextTime (r.nextTime + more + 1)
      = (s.complete r.nextTime).hasPending r.nextTime (r.nextTime + more + 1) from rfl]
    rw [show ((s.withPolicy p).complete r.nextTime).config.convergence
      = (s.complete r.nextTime).config.convergence from rfl]
    split <;> rfl

/-- Under the abort policy and under another one, a run attempts the same up to the first
conflict. -/
theorem runFrom_lockstep (hp : r.config.policy = .abort) (p : Policy) (more : Nat) :
    Lockstep r.pairing
      ((r.withPolicy p).runFrom more r.nextTime
        = ((r.runFrom more r.nextTime).1.withPolicy p, (r.runFrom more r.nextTime).2))
      (fun a c => a.StopsRun c (r.runFrom more r.nextTime)) (r.runAttempts more)
      ((r.withPolicy p).runAttempts more) := by
  induction more generalizing r with
  | zero =>
    rw [runAttempts_zero, runAttempts_zero]
    refine (timestep_lockstep hp p r.nextTime).map (fun hsame => ?_) (fun a c hstops => ?_)
    · rcases hstep : r.timestep r.nextTime with ⟨s, halt | progress⟩ <;> rw [hstep] at hsame
      · rw [runFrom_of_error hstep, runFrom_of_error hsame]
      · rw [runFrom_zero hstep, runFrom_zero hsame]
        rfl
    · rcases hstep : r.timestep r.nextTime with ⟨s, halt | progress⟩ <;> rw [hstep] at hstops
      · rw [runFrom_of_error hstep]
        cases hstops.1
        exact ⟨rfl, hstops.2⟩
      · cases hstops.1
  | succ more ih =>
    rw [runAttempts_succ, runAttempts_succ]
    refine (timestep_lockstep hp p r.nextTime).append (fun hsame => ?_) (fun a c hstops => ?_)
    · rw [next?_withPolicy hsame]
      cases hnext : r.next? more with
      | some s =>
        obtain ⟨u, progress, hstep, rfl⟩ := next?_cases hnext
        have hsetup := sameSetup_timestep hstep
        have hnext' := (next?_withPolicy hsame).trans (congrArg (Option.map (·.withPolicy p)) hnext)
        have hrest := ih (r := u.complete r.nextTime)
          ((congrArg Config.policy hsetup.config).trans hp)
        rw [show (u.complete r.nextTime).pairing = r.pairing from hsetup.pairing] at hrest
        rw [runFrom_of_next? hnext]
        exact hrest.map (fun h => (runFrom_of_next? hnext').trans h) (fun _ _ h => h)
      | none =>
        have hnext' := (next?_withPolicy hsame).trans (congrArg (Option.map (·.withPolicy p)) hnext)
        refine .nil ?_
        rcases runFrom_of_next?_eq_none hnext with
          ⟨s, halt, hstep, hrun⟩ | ⟨s, progress, hstep, -, hrun⟩ <;> rw [hstep] at hsame <;> rw [hrun]
        · exact runFrom_of_error hsame _
        · rcases runFrom_of_next?_eq_none hnext' with
            ⟨s', halt, hstep', hrun'⟩ | ⟨s', progress, hstep', -, hrun'⟩
          · cases hsame.symm.trans hstep'
          · cases hsame.symm.trans hstep'
            exact hrun'
    · rcases hstep : r.timestep r.nextTime with ⟨s, halt | progress⟩ <;> rw [hstep] at hstops
      · cases hstops.1
        rw [runFrom_of_error hstep]
        refine ⟨?_, rfl, hstops.2⟩
        unfold next?
        rw [hstep]
      · cases hstops.1

/-- The starts of the timesteps under the abort policy come first under another one. -/
theorem runStarts_prefix (hp : r.config.policy = .abort) (p : Policy) (more : Nat) :
    (r.runStarts more).map (·.withPolicy p) <+: (r.withPolicy p).runStarts more := by
  induction more generalizing r with
  | zero => exact List.prefix_refl _
  | succ more ih =>
    rw [runStarts, runStarts, List.map_cons, List.prefix_cons_inj]
    cases hnext : r.next? more with
    | none => exact List.nil_prefix
    | some s =>
      obtain ⟨u, progress, hstep, rfl⟩ := next?_cases hnext
      have hlockstep := timestep_lockstep hp p r.nextTime
      generalize r.attempts r.nextTime = log at hlockstep
      generalize (r.withPolicy p).attempts r.nextTime = log' at hlockstep
      cases hlockstep with
      | alike _ hsame =>
        rw [next?_withPolicy hsame, hnext]
        exact ih ((congrArg Config.policy (sameSetup_timestep hstep).config).trans hp)
      | parts _ _ hstops =>
        rw [hstep] at hstops
        cases hstops.1

/-! ## Calls -/

theorem addFacts_withPolicy (r : Reasoner) (p : Policy) (facts : List Fact) :
    (r.withPolicy p).addFacts facts = ((r.addFacts facts).1.withPolicy p, (r.addFacts facts).2) := by
  refine addFacts_comm (f := (·.withPolicy p)) (fun _ => rfl) (fun r fact => ?_) r facts
  unfold addFact
  cases fact.validate <;> rfl

/-- A call comes down to the same run under another policy. -/
theorem runOf?_withPolicy (r : Reasoner) (p : Policy) (c : Call) :
    (r.withPolicy p).runOf? c = (r.runOf? c).map fun run => (run.1.withPolicy p, run.2) := by
  cases c with
  | reason => rfl
  | reasonAgain extra facts =>
    unfold runOf?
    dsimp only
    rw [addFacts_withPolicy]
    rcases r.addFacts facts with ⟨s, _ | error⟩
    · cases extra <;> rfl
    · rfl
  | addRule | addFact | setPairing => rfl

/-- Nor does a call look at the policy if it does not run. -/
theorem call_withPolicy {c : Call} (h : r.runOf? c = none) (p : Policy) :
    (r.withPolicy p).call c = ((r.call c).1.withPolicy p, (r.call c).2) := by
  cases c with
  | reason => cases h
  | reasonAgain extra facts =>
    have h' := r.runOf?_withPolicy p (.reasonAgain extra facts)
    rw [h] at h'
    rw [call_reasonAgain h, call_reasonAgain h', addFacts_withPolicy]
    rfl
  | addRule rule =>
    unfold call addRule
    dsimp only
    cases rule.validate <;> rfl
  | addFact fact =>
    unfold call addFact
    dsimp only
    cases fact.validate <;> rfl
  | setPairing pairing => rfl

/-- A call stopped at an attempt, with the report of its conflict, and the attempt has left nothing
behind. -/
def StopsCall (r : Reasoner) (c : Call) (a : Attempt) (conflict : Conflict) : Prop :=
  (r.call c).2 = .ok (some ((r.call c).1.report false (some conflict))) ∧
    (r.call c).1.interpretation = a.before.interpretation ∧ (r.call c).1.trace = a.before.trace

/-- Under the abort policy and under another one, a call attempts the same up to the first
conflict. -/
theorem call_lockstep (hp : r.config.policy = .abort) (p : Policy) (c : Call) :
    Lockstep r.pairing
      ((r.withPolicy p).call c = ((r.call c).1.withPolicy p, (r.call c).2))
      (r.StopsCall c) (r.callAttempts c) ((r.withPolicy p).callAttempts c) := by
  have hrun' := r.runOf?_withPolicy p c
  cases hrun : r.runOf? c with
  | none =>
    rw [hrun] at hrun'
    rw [callAttempts_of_runOf?_eq_none hrun, callAttempts_of_runOf?_eq_none hrun']
    exact .nil (call_withPolicy hrun p)
  | some run =>
    obtain ⟨s, more⟩ := run
    rw [hrun] at hrun'
    have hframe := runOf?_frame hrun
    have hps : s.config.policy = .abort := by
      rw [hframe]
      exact hp
    have hpairing : s.pairing = r.pairing := by rw [hframe]
    have hlockstep := runFrom_lockstep hps p more
    rw [callAttempts_of_runOf? hrun, callAttempts_of_runOf? hrun', ← hpairing]
    refine hlockstep.map (fun hsame => ?_) (fun a conflict hstops => ?_)
    · rw [call_of_runOf? hrun, call_of_runOf? hrun']
      dsimp only
      unfold run
      rw [show (s.withPolicy p).nextTime = s.nextTime from rfl, hsame]
      rcases s.runFrom more s.nextTime with ⟨u, (c | e) | early⟩ <;> rfl
    · unfold StopsCall
      rw [call_of_runOf? hrun]
      unfold run
      rcases hrunFrom : s.runFrom more s.nextTime with ⟨u, (c | e) | early⟩ <;>
        rw [hrunFrom] at hstops <;> cases hstops.1
      exact ⟨rfl, hstops.2⟩

/-- Unless the policy is to abort, a run has a report that tells of no conflict. -/
theorem call_halted (hsound : r.Sound) (hp : r.config.policy ≠ .abort) {c : Call} {s : Reasoner}
    {more : Nat} (hrun : r.runOf? c = some (s, more)) :
    ∃ report, (r.call c).2 = .ok (some report) ∧ report.halted = none := by
  have hconfig : s.config = r.config := by rw [runOf?_frame hrun]
  rw [call_of_runOf? hrun]
  unfold run
  rcases hrunFrom : s.runFrom more s.nextTime with ⟨u, (c | e) | early⟩
  · obtain ⟨a, -, hhalt⟩ := runFrom_halt (congrArg Prod.snd hrunFrom)
    rw [hconfig] at hhalt
    exact absurd hhalt (Work.perform_ne_conflict hp a.before a.effect c)
  · exact ((hsound.runOf? hrun).runFrom more rfl (.failure e) (congrArg Prod.snd hrunFrom)).elim
  · exact ⟨_, rfl, rfl⟩

theorem callStarts_prefix (hp : r.config.policy = .abort) (p : Policy) (c : Call) :
    (r.callStarts c).map (·.withPolicy p) <+: (r.withPolicy p).callStarts c := by
  have hrun' := r.runOf?_withPolicy p c
  unfold callStarts
  rw [hrun']
  cases hrun : r.runOf? c with
  | none => exact List.prefix_refl _
  | some run =>
    obtain ⟨s, more⟩ := run
    have hps : s.config.policy = .abort := by
      rw [runOf?_frame hrun]
      exact hp
    exact runStarts_prefix hps p more

/-- Let a call run under all policies, from the same state. If nothing that it attempts under some policy
runs into a conflict, then it attempts the same, answers the same and leads to the same state under
all policies. Otherwise all runs attempt the same, in the same states, up to the first conflict. The
run under the abort policy starts its timesteps like any other one, stops at this attempt, reports
its conflict as unresolved, and leaves the interpretation and the trace as the attempt has found
them. Under any other policy, a report tells of no conflict, and a run always has one. -/
theorem call_policies {rules : Rule → Prop} {facts : Fact → Prop} {r : Reasoner}
    (hr : r.Reachable rules facts) (c : Call) (p : Policy) :
    ((∀ a ∈ (r.withPolicy p).callAttempts c, a.conflict? r.pairing = none) →
      ∀ q, (r.withPolicy q).callAttempts c = (r.withPolicy p).callAttempts c ∧
        (r.withPolicy q).call c
          = (((r.withPolicy p).call c).1.withPolicy q, ((r.withPolicy p).call c).2)) ∧
    (∀ before a rest conflict, (r.withPolicy p).callAttempts c = before ++ a :: rest →
      (∀ b ∈ before, b.conflict? r.pairing = none) → a.conflict? r.pairing = some conflict →
      (∀ q, before ++ [a] <+: (r.withPolicy q).callAttempts c ∧
        ((r.withPolicy .abort).callStarts c).map (·.withPolicy q) <+: (r.withPolicy q).callStarts c) ∧
      (r.withPolicy .abort).callAttempts c = before ++ [a] ∧
      conflict.resolved = false ∧
      ((r.withPolicy .abort).call c).2
        = .ok (some (((r.withPolicy .abort).call c).1.report false (some conflict))) ∧
      ((r.withPolicy .abort).call c).1.interpretation = a.before.interpretation ∧
      ((r.withPolicy .abort).call c).1.trace = a.before.trace) ∧
    (p ≠ .abort →
      (∀ report, ((r.withPolicy p).call c).2 = .ok (some report) → report.halted = none) ∧
      ((r.runOf? c).isSome = true → ∃ report, ((r.withPolicy p).call c).2 = .ok (some report))) := by
  have hlockstep (q : Policy) := call_lockstep (r := r.withPolicy .abort) rfl q c
  refine ⟨fun hfree q => ?_, fun before a rest conflict hlog hfree hconflict => ?_, fun hp => ?_⟩
  · have hfree' : ∀ a ∈ (r.withPolicy .abort).callAttempts c, a.conflict? r.pairing = none :=
      fun a ha => hfree a ((hlockstep p).isPrefix.subset ha)
    obtain ⟨hlogp, hcallp⟩ := (hlockstep p).of_free hfree'
    obtain ⟨hlogq, hcallq⟩ := (hlockstep q).of_free hfree'
    refine ⟨hlogq.trans hlogp.symm, hcallq.trans ?_⟩
    rw [show (r.withPolicy p).call c = _ from hcallp]
    rfl
  · have hp := hlockstep p
    rw [show ((r.withPolicy .abort).withPolicy p).callAttempts c = _ from hlog] at hp
    obtain ⟨habort, hanswer, hstate⟩ := hp.of_conflict hfree hconflict
    refine ⟨fun q => ⟨?_, callStarts_prefix rfl q c⟩, habort, a.resolved_conflict? hconflict, hanswer,
      hstate⟩
    rw [← habort]
    exact (hlockstep q).isPrefix
  · have hsound : (r.withPolicy p).Sound := ⟨hr.sound.fits, hr.sound.pending⟩
    have hrun := r.runOf?_withPolicy p c
    cases hrun' : r.runOf? c with
    | none =>
      rw [hrun'] at hrun
      exact ⟨fun report hreport => (call_of_runOf?_eq_none hrun hreport).2, by simp⟩
    | some run =>
      rw [hrun'] at hrun
      obtain ⟨report, hreport, hhalted⟩ := call_halted hsound hp hrun
      refine ⟨fun other hother => ?_, fun _ => ⟨report, hreport⟩⟩
      rw [hreport] at hother
      cases hother
      exact hhalted

/-- Two facts that contradict each other: under the abort policy, the run stops at the second one. -/
theorem call_policies_two_facts :
    let fact (name : String) (bound : Interval) : Fact :=
      ⟨name, .node ⟨"a"⟩, ⟨"p"⟩, bound, 0, 0, false, false⟩
    ∃ new, create (Graph.empty.addNode ⟨"a"⟩) {} .standard = .ok new ∧
      let r := (new.calls [.addFact (fact "yes" .certain), .addFact (fact "no" .impossible)]).1
      ∃ a b conflict, (r.withPolicy .resolve).callAttempts .reason = [a, b] ∧
        b.conflict? r.pairing = some conflict ∧
        (r.withPolicy .abort).callAttempts .reason = [a, b] ∧
        ((r.withPolicy .abort).call .reason).2
          = .ok (some (((r.withPolicy .abort).call .reason).1.report false (some conflict))) ∧
        ((r.withPolicy .abort).call .reason).1.interpretation = b.before.interpretation := by
  intro fact
  refine ⟨_, rfl, ?_⟩
  intro r
  have hr : r.Reachable (fun _ => True) fun _ => True :=
    (Reachable.create (show create (Graph.empty.addNode ⟨"a"⟩) {} .standard = .ok _ from rfl)).calls
      (by simp [Call.Brings])
  obtain ⟨-, hstops, -⟩ := call_policies hr .reason .resolve
  have hconflicts : ((r.withPolicy .resolve).callAttempts .reason).map
      (fun a => (a.conflict? r.pairing).isSome) = [false, true] := by decide +kernel
  obtain ⟨a, others, hlog, ha, hothers⟩ := List.map_eq_cons_iff.1 hconflicts
  obtain ⟨b, none, rfl, hb, hnone⟩ := List.map_eq_cons_iff.1 hothers
  obtain rfl := List.map_eq_nil_iff.1 hnone
  obtain ⟨conflict, hconflict⟩ := Option.isSome_iff_exists.1 hb
  obtain ⟨-, habort, -, hanswer, hstate, -⟩ := hstops [a] b [] conflict hlog (by simpa using ha)
    hconflict
  exact ⟨a, b, conflict, hlog, hconflict, habort, hanswer, hstate⟩

end Reasoner

end AnnotatedLogic
