import AnnotatedLogic.Reasoner.Run
/-!
# Calls

What can be asked of a reasoner, and the states that it gets into by being asked.

* `call`, `calls`: one call, and one after the other. A call that is refused leaves the reasoner as
  far as it got.
* `Reachable`: the states that a new reasoner gets into by calls, also in the middle of one.
* `Kept`: what a proof that calls keep something comes down to; `Kept.call` and `Kept.reachable`
  say that it is enough.
-/

namespace AnnotatedLogic

/-- What can be asked of a reasoner. -/
inductive Call where
  | reason
  | reasonAgain (extra : Nat) (facts : List Fact)
  | addRule (rule : Rule)
  | addFact (fact : Fact)
  | setPairing (pairing : Pairing)
deriving DecidableEq

namespace Reasoner

/-- One call. The answer of a run is its report; the other calls have nothing to tell. -/
def call (r : Reasoner) : Call → Reasoner × Except Error (Option Report)
  | .reason => (r.reason.1, r.reason.2.map some)
  | .reasonAgain extra facts =>
    ((r.reasonAgain extra facts).1, (r.reasonAgain extra facts).2.map some)
  | .addRule rule =>
    match r.addRule rule with
    | .ok r => (r, .ok none)
    | .error error => (r, .error error)
  | .addFact fact =>
    match r.addFact fact with
    | .ok r => (r, .ok none)
    | .error error => (r, .error error)
  | .setPairing pairing => (r.setPairing pairing, .ok none)

/-- One call after the other, and the answers. -/
def calls (r : Reasoner) : List Call → Reasoner × List (Except Error (Option Report))
  | [] => (r, [])
  | c :: cs => (((r.call c).1.calls cs).1, (r.call c).2 :: ((r.call c).1.calls cs).2)

end Reasoner

/-- The rules and facts that a call brings along are of some kind. -/
def Call.Brings (rules : Rule → Prop) (facts : Fact → Prop) : Call → Prop
  | .reasonAgain _ fs => ∀ f ∈ fs, facts f
  | .addRule rule => rules rule
  | .addFact fact => facts fact
  | .reason | .setPairing _ => True

/-- Any call brings along some rules and facts. -/
theorem Call.brings_any (c : Call) : c.Brings (fun _ => True) fun _ => True := by
  cases c <;> simp [Brings]

namespace Reasoner

/-- The states that a new reasoner gets into by calls that bring along rules and facts of some kind,
those between two timesteps of a run included. -/
inductive Reachable (rules : Rule → Prop) (facts : Fact → Prop) : Reasoner → Prop where
  | create {graph : Graph} {labelling : Labelling} {config : Config} {r : Reasoner}
      (h : create graph labelling config = .ok r) : Reachable rules facts r
  | timestep {r : Reasoner} (h : Reachable rules facts r) :
      Reachable rules facts (r.timestep r.nextTime).1
  | complete {r s : Reasoner} {progress : Progress} (h : Reachable rules facts r)
      (hs : r.timestep r.nextTime = (s, .ok progress)) :
      Reachable rules facts (s.complete r.nextTime)
  | addRule {r : Reasoner} {rule : Rule} (h : Reachable rules facts r) (hr : rules rule)
      (hv : rule.validate = .ok ()) : Reachable rules facts { r with rules := r.rules ++ [rule] }
  | addFact {r : Reasoner} {fact : Fact} (h : Reachable rules facts r) (hf : facts fact)
      (steps : Nat) (hv : (fact.shift steps).validate = .ok ()) :
      Reachable rules facts { r with facts := r.facts ++ [fact.shift steps] }
  | setPairing {r : Reasoner} (h : Reachable rules facts r) (pairing : Pairing) :
      Reachable rules facts (r.setPairing pairing)

/-- Whatever a call is made of keeps `P`, as long as it brings along rules and facts of some
kind. -/
structure Kept (rules : Rule → Prop) (facts : Fact → Prop) (P : Reasoner → Prop) : Prop where
  timestep {r} : P r → P (r.timestep r.nextTime).1
  complete {r s progress} : P r → r.timestep r.nextTime = (s, .ok progress) →
    P (s.complete r.nextTime)
  addRule {r : Reasoner} {rule : Rule} : P r → rules rule → rule.validate = .ok () →
    P { r with rules := r.rules ++ [rule] }
  addFact {r : Reasoner} {fact : Fact} : P r → facts fact → ∀ steps : Nat,
    (fact.shift steps).validate = .ok () → P { r with facts := r.facts ++ [fact.shift steps] }
  setPairing {r : Reasoner} : P r → ∀ pairing : Pairing, P (r.setPairing pairing)

namespace Kept

variable {rules : Rule → Prop} {facts : Fact → Prop} {P : Reasoner → Prop}

/-- A run is at its next timestep whenever it starts one. -/
theorem runFrom (h : Kept rules facts P) {r : Reasoner} (hr : P r) (more : Nat) {t : Nat}
    (ht : t = r.nextTime) : P (r.runFrom more t).1 := by
  induction more generalizing r t with
  | zero =>
    subst ht
    have hstep := h.timestep hr
    unfold Reasoner.runFrom
    split
    · next heq => rw [heq] at hstep; exact hstep
    · next heq => exact h.complete hr heq
  | succ more ih =>
    subst ht
    have hstep := h.timestep hr
    unfold Reasoner.runFrom
    split
    · next heq => rw [heq] at hstep; exact hstep
    · next heq =>
      dsimp only
      split
      · exact h.complete hr heq
      · exact ih (h.complete hr heq) rfl

theorem run (h : Kept rules facts P) {r : Reasoner} (hr : P r) (more : Nat) :
    P (r.run more).1 := by
  have hrun := h.runFrom hr more rfl
  unfold Reasoner.run
  split <;> next heq => rw [heq] at hrun; exact hrun

theorem addFacts (h : Kept rules facts P) {r : Reasoner} (hr : P r) {fs : List Fact}
    (hfs : ∀ f ∈ fs, facts f) : P (r.addFacts fs).1 := by
  induction fs generalizing r with
  | nil => exact hr
  | cons fact fs ih =>
    unfold Reasoner.addFacts Reasoner.addFact
    cases hv : (fact.shift r.nextTime).validate with
    | error error => exact hr
    | ok u => exact ih (h.addFact hr (hfs fact (by simp)) _ hv) fun f hf => hfs f (by simp [hf])

theorem reasonAgain (h : Kept rules facts P) {r : Reasoner} (hr : P r) (extra : Nat)
    {fs : List Fact} (hfs : ∀ f ∈ fs, facts f) : P (r.reasonAgain extra fs).1 := by
  have hadd := h.addFacts hr hfs
  unfold Reasoner.reasonAgain
  split
  · next heq => rw [heq] at hadd; exact hadd
  · next heq =>
    rw [heq] at hadd
    split
    · exact hadd
    · exact h.run hadd _

/-- A call keeps what its parts keep, refused or not. -/
theorem call (h : Kept rules facts P) {r : Reasoner} (hr : P r) {c : Call}
    (hc : c.Brings rules facts) : P (r.call c).1 := by
  cases c with
  | reason => exact h.run hr _
  | reasonAgain extra fs => exact h.reasonAgain hr extra hc
  | addRule rule =>
    cases hv : rule.validate with
    | error error => simpa only [Reasoner.call, Reasoner.addRule, hv] using hr
    | ok u => simpa only [Reasoner.call, Reasoner.addRule, hv] using h.addRule hr hc hv
  | addFact fact =>
    cases hv : fact.validate with
    | error error => simpa only [Reasoner.call, Reasoner.addFact, hv] using hr
    | ok u =>
      have hadd : P { r with facts := r.facts ++ [fact] } := h.addFact hr hc 0 hv
      simpa only [Reasoner.call, Reasoner.addFact, hv] using hadd
  | setPairing pairing => exact h.setPairing hr pairing

theorem calls (h : Kept rules facts P) {r : Reasoner} (hr : P r) {cs : List Call}
    (hcs : ∀ c ∈ cs, c.Brings rules facts) : P (r.calls cs).1 := by
  induction cs generalizing r with
  | nil => exact hr
  | cons c cs ih => exact ih (h.call hr (hcs c (by simp))) fun d hd => hcs d (by simp [hd])

/-- What holds of new reasoners and is kept holds in every state they get into. -/
theorem reachable (h : Kept rules facts P)
    (hcreate : ∀ {graph labelling config r}, create graph labelling config = .ok r → P r)
    {r : Reasoner} (hr : r.Reachable rules facts) : P r := by
  induction hr with
  | create hnew => exact hcreate hnew
  | timestep _ ih => exact h.timestep ih
  | complete _ hs ih => exact h.complete ih hs
  | addRule _ hrule hv ih => exact h.addRule ih hrule hv
  | addFact _ hfact steps hv ih => exact h.addFact ih hfact steps hv
  | setPairing _ pairing ih => exact h.setPairing ih pairing

end Kept

theorem kept_reachable (rules : Rule → Prop) (facts : Fact → Prop) :
    Kept rules facts (Reachable rules facts) where
  timestep h := h.timestep
  complete h hs := h.complete hs
  addRule h hr hv := h.addRule hr hv
  addFact h hf steps hv := h.addFact hf steps hv
  setPairing h pairing := h.setPairing pairing

/-- Calls lead from one such state to another. -/
theorem Reachable.calls {rules : Rule → Prop} {facts : Fact → Prop} {r : Reasoner}
    (h : Reachable rules facts r) {cs : List Call} (hcs : ∀ c ∈ cs, c.Brings rules facts) :
    Reachable rules facts (r.calls cs).1 :=
  (kept_reachable rules facts).calls h hcs

end Reasoner

end AnnotatedLogic
