import AnnotatedLogic.Proofs.Answers
/-!
# What a refused call leaves behind

A rule or a fact of its own is looked at before it is entered, so a call that is refused for it changes
nothing. The facts of a further run are looked at and entered one after the other, and those before the first
that is invalid stay.

* `Call.RefusedAfter`: what a call is refused for, and the facts that come before.
* `addFacts_append`, `addFacts_of_fault`: how far facts are entered.
* `call_of_refusedAfter`: the state and the answer of such a call. `Sound.refusedAfter` says that there is no
  other refusal.
* `refused_call_iff`: both of any call; it leaves the reasoner as it was just when nothing comes before what
  it is refused for. `valid_fact_left` is a call after which a fact is in force.
-/

namespace AnnotatedLogic

/-- At time `t` the call is refused with an error, after some facts have been found valid: for the rule or
fact that it brings along, or for one of its further facts, which counts from time `t`. -/
inductive Call.RefusedAfter (t : Nat) : Call → Error → List Fact → Prop where
  | rule {rule : Rule} {error : Error} (h : rule.validate = .error error) :
      RefusedAfter t (.addRule rule) error []
  | fact {fact : Fact} {error : Error} (h : fact.validate = .error error) :
      RefusedAfter t (.addFact fact) error []
  | facts {extra : Nat} {valid rest : List Fact} {fact : Fact} {error : Error}
      (hvalid : ∀ f ∈ valid, f.validate = .ok ()) (h : (fact.shift t).validate = .error error) :
      RefusedAfter t (.reasonAgain extra (valid ++ fact :: rest)) error valid

/-- A window is valid if it is so where it is moved to. -/
theorem Fact.validate_of_shift {f : Fact} {steps : Nat} (h : (f.shift steps).validate = .ok ()) :
    f.validate = .ok () := by
  unfold validate at h ⊢
  split at h
  · cases h
  · next hwindow =>
    refine if_neg fun ⟨hlt, hstatic⟩ => hwindow ⟨?_, hstatic⟩
    exact Nat.add_lt_add_right hlt steps

/-- Facts are all valid, or there is a first that is not where it is moved to. -/
theorem Fact.valid_or_split (t : Nat) (facts : List Fact) :
    (∀ f ∈ facts, f.validate = .ok ()) ∨
      ∃ valid fact rest error, facts = valid ++ fact :: rest ∧ (∀ f ∈ valid, f.validate = .ok ()) ∧
        (fact.shift t).validate = .error error := by
  induction facts with
  | nil => exact .inl (by simp)
  | cons fact facts ih =>
    cases hfact : (fact.shift t).validate with
    | error error => exact .inr ⟨[], fact, facts, error, rfl, by simp, hfact⟩
    | ok u =>
      have hvalid : fact.validate = .ok () := validate_of_shift hfact
      rcases ih with hall | ⟨valid, fault, rest, error, rfl, hbefore, hfault⟩
      · exact .inl (List.forall_mem_cons.2 ⟨hvalid, hall⟩)
      · exact .inr ⟨fact :: valid, fault, rest, error, rfl,
          List.forall_mem_cons.2 ⟨hvalid, hbefore⟩, hfault⟩

namespace Reasoner

variable {r : Reasoner} {valid facts : List Fact} {error : Error}

/-- The reasoner with further facts, whose windows count from the next timestep. -/
def withFacts (r : Reasoner) (facts : List Fact) : Reasoner :=
  { r with facts := r.facts ++ facts.map (·.shift r.nextTime) }

theorem withFacts_eq_self_iff : r.withFacts facts = r ↔ facts = [] := by
  constructor
  · intro h
    have hfacts : r.facts ++ facts.map (·.shift r.nextTime) = r.facts := congrArg (·.facts) h
    simpa using hfacts
  · rintro rfl
    simp [withFacts]

/-! ## How far facts are entered -/

/-- Facts that are valid are entered, and what follows is looked at then. -/
theorem addFacts_append (hvalid : ∀ f ∈ valid, f.validate = .ok ()) :
    r.addFacts (valid ++ facts) = (r.withFacts valid).addFacts facts := by
  induction valid generalizing r with
  | nil => rw [List.nil_append, withFacts_eq_self_iff.2 rfl]
  | cons fact valid ih =>
    have hfact : (fact.shift r.nextTime).validate = .ok () :=
      Fact.validate_shift (hvalid fact (by simp)) _
    rw [List.cons_append, addFacts, addFact, hfact]
    dsimp only
    rw [ih fun f hf => hvalid f (by simp [hf])]
    simp [withFacts]

/-- Nothing is entered once a fact is found to be invalid. -/
theorem addFacts_of_fault {fact : Fact} (h : (fact.shift r.nextTime).validate = .error error) :
    r.addFacts (fact :: facts) = (r, some error) := by
  rw [addFacts, addFact, h]

/-! ## Refused calls -/

/-- A call that is refused ends where it finds the fault. -/
theorem call_of_refusedAfter {c : Call} (h : c.RefusedAfter r.nextTime error valid) :
    r.call c = (r.withFacts valid, .error error) := by
  cases h with
  | rule hfault => simp [call, addRule, hfault, withFacts]
  | fact hfault => simp [call, addFact, hfault, withFacts]
  | facts hvalid hfault =>
    simp only [call, reasonAgain, addFacts_append hvalid,
      addFacts_of_fault (r := r.withFacts valid) hfault]
    rfl

/-- No call is refused for anything else. -/
theorem Sound.refusedAfter (h : r.Sound) {c : Call} (hcall : (r.call c).2 = .error error) :
    ∃ valid, c.RefusedAfter r.nextTime error valid := by
  cases h.refused_of_call hcall with
  | rule hfault => exact ⟨[], .rule hfault⟩
  | fact hfault => exact ⟨[], .fact hfault⟩
  | @facts extra _ facts =>
    rcases Fact.valid_or_split r.nextTime facts with
      hall | ⟨valid, fact, rest, fault, rfl, hvalid, hfault⟩
    · obtain ⟨report, hreport⟩ := h.reasonAgain_ok extra hall
      have hanswer : (r.call (.reasonAgain extra facts)).2 = .ok (some report) :=
        congrArg (·.map some) hreport
      rw [hanswer] at hcall
      cases hcall
    · have hrefused :
          (Call.reasonAgain extra (valid ++ fact :: rest)).RefusedAfter r.nextTime fault valid :=
        .facts hvalid hfault
      rw [call_of_refusedAfter hrefused] at hcall
      cases hcall
      exact ⟨valid, hrefused⟩

/-- In every state, a call is refused just when a rule or fact that it brings along is invalid, with the
error of the first such. It leaves the reasoner with the further facts that come before and otherwise as it
was. So a refused call changes nothing just when no valid fact comes before the invalid one, and a call that
brings along a single rule or fact changes nothing whenever it is refused. -/
theorem refused_call_iff {rules : Rule → Prop} {facts : Fact → Prop} (h : r.Reachable rules facts)
    (c : Call) (error : Error) :
    ((r.call c).2 = .error error ↔ ∃ valid, c.RefusedAfter r.nextTime error valid) ∧
      (∀ valid, c.RefusedAfter r.nextTime error valid →
        (r.call c).1 = { r with facts := r.facts ++ valid.map (·.shift r.nextTime) } ∧
        ((r.call c).1 = r ↔ valid = [])) ∧
      ((r.call c).2 = .error error → (∀ extra facts, c ≠ .reasonAgain extra facts) →
        (r.call c).1 = r) := by
  refine ⟨⟨h.sound.refusedAfter, fun ⟨valid, hrefused⟩ => ?_⟩, fun valid hrefused => ?_,
    fun hcall hother => ?_⟩
  · rw [call_of_refusedAfter hrefused]
  · rw [call_of_refusedAfter hrefused]
    exact ⟨rfl, withFacts_eq_self_iff⟩
  · obtain ⟨valid, hrefused⟩ := h.sound.refusedAfter hcall
    rw [call_of_refusedAfter hrefused]
    cases hrefused with
    | rule | fact => exact withFacts_eq_self_iff.2 rfl
    | facts => exact absurd rfl (hother _ _)

/-- After a first timestep, a call with a valid and an invalid fact is refused and leaves the valid one, to
hold from the next timestep on. In the other order the call changes nothing, and neither does a refused
rule. -/
theorem refused_call_iff_second_fact :
    let good : Fact := ⟨"good", .node ⟨"A"⟩, ⟨"p"⟩, .certain, 0, 1, false, false⟩
    let bad : Fact := ⟨"bad", .node ⟨"A"⟩, ⟨"p"⟩, .certain, 1, 0, false, false⟩
    let hasty : Rule := { Rule.simple .node "hasty" ⟨"q"⟩ with immediate := true }
    ∃ new, create (Graph.empty.addNode ⟨"A"⟩) {} { Config.standard with timesteps := 0 } = .ok new ∧
      let r := (new.calls [.reason]).1
      r.Reachable (fun _ => True) (fun _ => True) ∧
        (r.call (.reasonAgain 1 [good, bad])).2 = .error (.invalidFact "bad" 2 1) ∧
        (r.call (.reasonAgain 1 [good, bad])).1 = { r with facts := [good.during 1 2] } ∧
        (r.call (.reasonAgain 1 [bad, good])).1 = r ∧
        (r.call (.addRule hasty)).2 = .error (.invalidRule "hasty" (.delayedImmediate 1)) ∧
        (r.call (.addRule hasty)).1 = r := by
  intro good bad hasty
  refine ⟨_, rfl, ?_⟩
  intro r
  have hr : r.Reachable (fun _ => True) fun _ => True :=
    (Reachable.create (show create (Graph.empty.addNode ⟨"A"⟩) {}
      { Config.standard with timesteps := 0 } = .ok _ from rfl)).calls (by simp [Call.Brings])
  have hstart : r.nextTime = 1 ∧ r.facts = [] := by decide +kernel
  clear_value r
  have hfault : (bad.shift r.nextTime).validate = .error (.invalidFact "bad" 2 1) := by
    rw [hstart.1]
    rfl
  have hsecond : (Call.reasonAgain 1 [good, bad]).RefusedAfter r.nextTime
      (.invalidFact "bad" 2 1) [good] :=
    .facts (show ∀ f ∈ [good], f.validate = .ok () by decide) hfault
  have hfirst : (Call.reasonAgain 1 [bad, good]).RefusedAfter r.nextTime (.invalidFact "bad" 2 1) [] :=
    .facts (List.forall_mem_nil _) hfault
  have hrule : (Call.addRule hasty).RefusedAfter r.nextTime
      (.invalidRule "hasty" (.delayedImmediate 1)) [] := .rule (by decide +kernel)
  obtain ⟨hrefused, hleaves, -⟩ :=
    refused_call_iff hr (.reasonAgain 1 [good, bad]) (.invalidFact "bad" 2 1)
  obtain ⟨-, hkeeps, -⟩ := refused_call_iff hr (.reasonAgain 1 [bad, good]) (.invalidFact "bad" 2 1)
  obtain ⟨hrejected, -, hother⟩ :=
    refused_call_iff hr (.addRule hasty) (.invalidRule "hasty" (.delayedImmediate 1))
  refine ⟨hr, hrefused.2 ⟨_, hsecond⟩, ?_, (hkeeps _ hfirst).2.2 rfl, hrejected.2 ⟨_, hrule⟩,
    hother (hrejected.2 ⟨_, hrule⟩) (by simp)⟩
  rw [(hleaves _ hsecond).1, hstart.1, hstart.2]
  rfl

/-- A call with a valid and an invalid fact is refused, and the valid one stays. The next run asserts it,
which it would not do had the call changed nothing. -/
theorem valid_fact_left :
    let good : Fact := ⟨"good", .node ⟨"A"⟩, ⟨"p"⟩, .certain, 0, 0, false, false⟩
    let bad : Fact := ⟨"bad", .node ⟨"A"⟩, ⟨"p"⟩, .certain, 1, 0, false, false⟩
    ∃ new, create (Graph.empty.addNode ⟨"A"⟩) {} { Config.standard with timesteps := 0 } = .ok new ∧
      let r := (new.call (.reasonAgain 1 [good, bad])).1
      (new.call (.reasonAgain 1 [good, bad])).2 = .error (.invalidFact "bad" 1 0) ∧
        r.facts = [good] ∧ r ≠ new ∧
        (r.call .reason).1.interpretation.satisfies (.node ⟨"A"⟩) ⟨"p"⟩ .certain = true ∧
        (new.call .reason).1.interpretation.satisfies (.node ⟨"A"⟩) ⟨"p"⟩ .certain = false := by
  intro good bad
  refine ⟨_, rfl, ?_⟩
  decide +kernel

end Reasoner

end AnnotatedLogic
