import AnnotatedLogic.Proofs.Attempts
import AnnotatedLogic.Proofs.Queue
/-!
# What a conflict leaves of the queue

A timestep that a conflict stops is computed again by the next run. Whether its firings are still there
by then depends on where it was stopped: a fact that stops it leaves all firings in the queue, but
the first firing that is carried out takes those after it out of the queue as well.

* `Work.performAll_halt_cases`: groups of effects that stop, stop within one of the groups.
* `Remains`, `timestep_remains`: what a timestep that a conflict stops leaves of the queue.
* `call_stopped`: the same of a call, whose last timestep is the next one to be computed.
* `firing_lost`: a firing that is neither carried out nor still to come.
-/

namespace AnnotatedLogic

/-- Groups of effects that stop, stop within one of the groups. Those before it have been carried out, and
nothing of those after it has been attempted. -/
theorem Work.performAll_halt_cases {α : Type} {config : Config} {pairing : Pairing} {w v : Work}
    {halt : Halt} {xs : List α} {f : α → List Effect}
    (h : w.performAll config pairing (xs.flatMap f) = (v, some halt)) :
    ∃ done x rest u, xs = done ++ x :: rest ∧
      w.performAll config pairing (done.flatMap f) = (u, none) ∧
      u.performAll config pairing (f x) = (v, some halt) ∧
      w.attempts config pairing (xs.flatMap f)
        = w.attempts config pairing (done.flatMap f) ++ u.attempts config pairing (f x) := by
  unfold performAll attempts at *
  induction xs generalizing w with
  | nil => cases h
  | cons x xs ih =>
    rw [List.flatMap_cons, foldUntil_append] at h
    rw [List.flatMap_cons, logUntil_append]
    rcases hx : foldUntil (perform config pairing) w (f x) with ⟨u, _ | stop⟩ <;> rw [hx] at h
    · obtain ⟨done, y, rest, z, rfl, hdone, hy, hattempts⟩ := ih h
      refine ⟨x :: done, y, rest, z, rfl, ?_, hy, ?_⟩
      · rw [List.flatMap_cons, foldUntil_append, hx]
        exact hdone
      · rw [List.flatMap_cons, logUntil_append, hx]
        dsimp only
        rw [hattempts, List.append_assoc]
    · cases h
      exact ⟨[], x, xs, w, rfl, rfl, hx, List.append_nil _⟩

namespace Reasoner

/-- What a timestep that a conflict stops leaves of the queue. -/
inductive Remains (r : Reasoner) (t : Nat) (conflict : Conflict) : List Firing → Prop where
  /-- A fact stops the timestep, and the queue stays as it is. -/
  | facts {w : Work}
      (hfacts : (r.startWork t).performAll r.config r.pairing (r.factEffects t)
        = (w, some (.conflict conflict))) : Remains r t conflict r.pending
  /-- A firing stops the timestep. Those before it have been carried out. Those after it are out of the
  queue as well, although nothing of them has been attempted. -/
  | due {u v w : Work} {done lost : List Firing} {f : Firing}
      (hfacts : (r.startWork t).performAll r.config r.pairing (r.factEffects t) = (u, none))
      (hdue : r.dueFirings t = done ++ f :: lost)
      (hdone : u.performAll r.config r.pairing
        (done.flatMap fun f => f.rule.effects t 0 f.grounding) = (v, none))
      (hstop : v.performAll r.config r.pairing (f.rule.effects t 0 f.grounding)
        = (w, some (.conflict conflict)))
      (hattempts : r.attempts t =
        (r.startWork t).attempts r.config r.pairing (r.factEffects t) ++
          u.attempts r.config r.pairing (done.flatMap fun f => f.rule.effects t 0 f.grounding) ++
          v.attempts r.config r.pairing (f.rule.effects t 0 f.grounding)) :
      Remains r t conflict (r.pending.filter (·.due != t))
  /-- The loop stops the timestep, and all firings that were due have been carried out. -/
  | loop {u v w : Work}
      (hfacts : (r.startWork t).performAll r.config r.pairing (r.factEffects t) = (u, none))
      (hdue : u.performAll r.config r.pairing
        ((r.dueFirings t).flatMap fun f => f.rule.effects t 0 f.grounding) = (v, none))
      (hloop : r.fixpoint t (r.config.maxIterations - 1) 1 v = (w, some (.conflict conflict))) :
      Remains r t conflict (r.pending.filter (·.due != t))

/-- Every timestep that a conflict stops leaves of the queue what it has not taken out. -/
theorem timestep_remains {r s : Reasoner} {t : Nat} {conflict : Conflict}
    (h : r.timestep t = (s, .error (.conflict conflict))) : r.Remains t conflict s.pending := by
  have hpassage := r.timestep_passage t
  rw [h] at hpassage
  cases hpassage with
  | facts hfacts => exact .facts hfacts
  | due hfacts hdue =>
    obtain ⟨done, f, lost, v, hfirings, hdone, hstop, hattempts⟩ := Work.performAll_halt_cases hdue
    refine .due hfacts hfirings hdone hstop ?_
    unfold attempts attemptsAfterFacts
    rw [hfacts]
    dsimp only
    rw [hdue, List.append_nil, List.append_assoc]
    exact congrArg _ hattempts
  | loop hfacts hdue hloop => exact .loop hfacts hdue hloop

/-- A call that a conflict stops has stopped in its last timestep, which is the next one to be computed.
The firings that are due later are still in the queue. Those that are due in this timestep are if a
fact has stopped it, and else they are not; a firing that has stopped it has taken all those after it
out of the queue. -/
theorem call_stopped {r : Reasoner} {c : Call} {report : Report} {conflict : Conflict}
    (hreport : (r.call c).2 = .ok (some report)) (hhalted : report.halted = some conflict) :
    ∃ earlier last, r.callStarts c = earlier ++ [last] ∧
      (r.call c).1.nextTime = last.nextTime ∧
      last.Remains last.nextTime conflict (r.call c).1.pending := by
  cases hrun : r.runOf? c with
  | none =>
    rw [(call_of_runOf?_eq_none hrun hreport).2] at hhalted
    cases hhalted
  | some run =>
    obtain ⟨s, more⟩ := run
    rw [callStarts_of_runOf? hrun]
    rw [call_of_runOf? hrun] at hreport ⊢
    unfold Reasoner.run at hreport ⊢
    have hends := s.runFrom_ends more
    generalize s.runFrom more s.nextTime = result at hreport hends ⊢
    cases hends with
    | @stopped earlier last u halt hstarts hstep =>
      cases halt with
      | failure error => cases hreport
      | conflict found =>
        cases hreport
        cases hhalted
        have hnext := last.timestep_nextTime last.nextTime
        rw [hstep] at hnext
        exact ⟨earlier, last, hstarts, hnext, timestep_remains hstep⟩
    | early | horizon =>
      cases hreport
      cases hhalted

/-- Two facts that contradict each other stop the first timestep. -/
theorem call_stopped_two_facts :
    let fact (name : String) (bound : Interval) : Fact :=
      ⟨name, .node ⟨"a"⟩, ⟨"p"⟩, bound, 0, 0, false, false⟩
    ∃ new, create (Graph.empty.addNode ⟨"a"⟩) {} { Config.standard with policy := .abort } = .ok new ∧
      let r := (new.calls [.addFact (fact "yes" .certain), .addFact (fact "no" .impossible)]).1
      ∃ conflict earlier last, reported? (r.call .reason).2 = some conflict ∧
        r.callStarts .reason = earlier ++ [last] ∧ (r.call .reason).1.nextTime = last.nextTime ∧
        last.Remains last.nextTime conflict (r.call .reason).1.pending := by
  intro fact
  refine ⟨_, rfl, ?_⟩
  intro r
  have hsome : (reported? (r.call .reason).2).isSome = true := by decide +kernel
  obtain ⟨conflict, hconflict⟩ := Option.isSome_iff_exists.1 hsome
  rcases hanswer : (r.call .reason).2 with error | _ | report <;> rw [hanswer] at hconflict
  · cases hconflict
  · cases hconflict
  · obtain ⟨earlier, last, hstarts, hnext, hremains⟩ := call_stopped hanswer hconflict
    exact ⟨conflict, earlier, last, hconflict, hstarts, hnext, hremains⟩

/-- Two rules fire at time `1`, and the first firing contradicts a fact. The second one is due, nothing
of it is attempted, it is out of the queue afterwards, and a further run over the same timestep does
not carry it out. -/
theorem firing_lost :
    let rule (name label : String) : Rule :=
      { Rule.simple .node name ⟨label⟩ with criteria := [(⟨"a"⟩, .certain)] }
    let config := { Config.standard with policy := .abort, timesteps := 1 }
    let first : Firing := ⟨1, rule "first" "p", ⟨.node ⟨"A"⟩, .certain, [], []⟩⟩
    let second : Firing := ⟨1, rule "second" "q", ⟨.node ⟨"A"⟩, .certain, [], []⟩⟩
    ∃ new, create (Graph.empty.addNode ⟨"A"⟩) {} config = .ok new ∧
      let r := (new.calls
        [.addRule (rule "first" "p"), .addRule (rule "second" "q"),
          .addFact ⟨"now", .node ⟨"A"⟩, ⟨"a"⟩, .certain, 0, 0, false, false⟩,
          .addFact ⟨"then", .node ⟨"A"⟩, ⟨"p"⟩, .impossible, 1, 1, false, false⟩]).1
      let stopped := (r.call .reason).1
      (reported? (r.call .reason).2).isSome = true ∧
        (r.callStarts .reason).getLast?.map (fun last => (last.nextTime, last.dueFirings 1))
          = some (1, [first, second]) ∧
        (∀ a ∈ r.callAttempts .reason, a.effect ∉ second.rule.effects 1 0 second.grounding) ∧
        stopped.nextTime = 1 ∧ second ∉ stopped.pending ∧
        (stopped.call (.reasonAgain 1 [])).1.nextTime = 2 ∧
        (stopped.call (.reasonAgain 1 [])).1.interpretation.satisfies (.node ⟨"A"⟩) ⟨"q"⟩ .certain
          = false := by
  intro rule config first second
  refine ⟨_, rfl, ?_⟩
  decide +kernel

end Reasoner

end AnnotatedLogic
