import AnnotatedLogic.Proofs.Calls
import AnnotatedLogic.Proofs.Plan
/-!
# The order of looking at candidates cannot be observed

Two reasoners that share out the candidates of a rule in different ways give the same answers to the
same calls, whatever the calls are and however they end.

* `call_withPlan`, `calls_withPlan`: calls answer alike under plans with the same number of
  timesteps.
* `calls_execution`: so the answers do not tell how candidates are looked at.
-/

namespace AnnotatedLogic

namespace Reasoner

variable {p : Plan}

/-- A call under another plan with the same number of timesteps does the same. -/
theorem call_withPlan {r : Reasoner} (hp : p.timesteps = r.config.timesteps) (c : Call) :
    (r.withPlan p).call c = ((r.call c).1.withPlan p, (r.call c).2) := by
  cases c with
  | reason =>
    have hreason : (r.withPlan p).reason = (r.withPlan p).run r.config.timesteps := by
      rw [← hp]
      rfl
    unfold call
    dsimp only
    rw [hreason, run_withPlan]
    rfl
  | reasonAgain extra facts =>
    unfold call
    dsimp only
    rw [reasonAgain_withPlan]
  | addRule rule =>
    cases hv : rule.validate with
    | error error => simp only [call, addRule, hv]
    | ok u =>
      simp only [call, addRule, hv]
      rfl
  | addFact fact =>
    cases hv : fact.validate with
    | error error => simp only [call, addFact, hv]
    | ok u =>
      simp only [call, addFact, hv]
      rfl
  | setPairing pairing => rfl

/-- No call changes the configuration. -/
theorem call_config (r : Reasoner) (c : Call) : (r.call c).1.config = r.config := by
  have hkept : Kept (fun _ => True) (fun _ => True) (fun s => s.config = r.config) :=
    { timestep := fun h => by rw [timestep_config, h]
      complete := fun {q s _} h hs => by
        have hconfig := q.timestep_config q.nextTime
        rw [hs, h] at hconfig
        exact hconfig
      addRule := fun h _ _ => h
      addFact := fun h _ _ _ => h
      setPairing := fun h _ => h }
  exact hkept.call rfl c.brings_any

theorem calls_config (r : Reasoner) (cs : List Call) : (r.calls cs).1.config = r.config := by
  induction cs generalizing r with
  | nil => rfl
  | cons c cs ih => exact (ih (r.call c).1).trans (r.call_config c)

theorem calls_withPlan {r : Reasoner} (hp : p.timesteps = r.config.timesteps) (cs : List Call) :
    (r.withPlan p).calls cs = ((r.calls cs).1.withPlan p, (r.calls cs).2) := by
  induction cs generalizing r with
  | nil => rfl
  | cons c cs ih =>
    have hnext : p.timesteps = (r.call c).1.config.timesteps := by rw [call_config, hp]
    unfold calls
    rw [call_withPlan hp, ih hnext]

/-- The groundings of a rule are the same in every order of looking at its candidates. Two reasoners
that differ in this order only answer every list of calls alike, and differ in nothing else
afterwards. -/
theorem calls_execution {graph : Graph} {labelling : Labelling} {config : Config}
    {execution : Execution} {threads : Option Nat} {r s : Reasoner}
    (hr : create graph labelling config = .ok r)
    (hs : create graph labelling { config with execution := execution, threads := threads }
      = .ok s) :
    (∀ (rule : Rule) (i : Interpretation) (order : List Nat),
        (∀ place < (rule.candidates i.graph).length, place ∈ order) →
        gatherInOrder (rule.groundAt i config.atomTrace) (rule.candidates i.graph).toArray order
          = rule.ground i config) ∧
      ∀ cs : List Call,
        (s.calls cs).2 = (r.calls cs).2 ∧
          (s.calls cs).1
            = { (r.calls cs).1 with
                config := { config with execution := execution, threads := threads } } := by
  constructor
  · intro rule i order horder
    rw [rule.ground_eq, gatherInOrder_eq _ _ (by simpa using horder)]
  · intro cs
    have hrc : r.config = config := by
      unfold create at hr
      split at hr <;> cases hr
      rfl
    have hsr : s = r.withPlan ⟨config.timesteps, execution, threads⟩ := by
      unfold create at hr hs
      split at hr <;> cases hr
      split at hs <;> cases hs
      rfl
    have hcalls := calls_withPlan (p := ⟨config.timesteps, execution, threads⟩) (r := r)
      (by rw [hrc]) cs
    have hconfig : (r.calls cs).1.config = config := by rw [calls_config, hrc]
    rw [hsr, hcalls]
    refine ⟨rfl, ?_⟩
    unfold withPlan Config.withPlan
    rw [hconfig]

/-- Three workers answer a run and a further run over an edge like one alone. -/
theorem calls_execution_three_workers :
    let graph := Graph.build [] [⟨⟨"a"⟩, ⟨"b"⟩⟩] true false
    let labelling : Labelling := { node := [⟨"p"⟩] }
    let cs : List Call := [.addRule (.simple .node "r" ⟨"p"⟩), .reason, .reasonAgain 2 []]
    ∃ r s, create graph labelling .standard = .ok r ∧
      create graph labelling { Config.standard with execution := .parallel, threads := some 3 }
        = .ok s ∧
      (s.calls cs).2 = (r.calls cs).2 :=
  ⟨_, _, rfl, rfl,
    ((@calls_execution _ _ .standard .parallel (some 3) _ _ rfl rfl).2 _).1⟩

end Reasoner

end AnnotatedLogic
