import AnnotatedLogic.Proofs.Attempts
/-!
# Lockstep

A policy is looked at only where an assertion runs into a conflict, so up to the first conflict it makes
no difference. There work under the abort policy stops, and leaves everything as it is.

* `Work.perform_withPolicy`, `Work.perform_abort`: an effect without a conflict does not look at the
  policy, and under the abort policy one with a conflict changes nothing.
* `Lockstep`: the attempts of a computation under the abort policy and under another one.
  `Lockstep.append` puts two computations after each other.
* `Work.performAll_lockstep`: effects carried out one after the other keep step.
-/

namespace AnnotatedLogic

/-- The same configuration with another policy. -/
def Config.withPolicy (c : Config) (p : Policy) : Config := { c with policy := p }

variable {config : Config} {pairing : Pairing}

/-! ## One effect -/

/-- Without a conflict, an assertion does not look at the policy. -/
theorem Interpretation.assertOn_withPolicy {i : Interpretation} {a : Assertion} {w : World}
    (h : a.conflict? pairing w = none) (p : Policy) :
    i.assertOn (config.withPolicy p) pairing a w = i.assertOn config pairing a w := by
  unfold Assertion.conflict? at h
  unfold assertOn
  dsimp only
  split
  · rfl
  · next hs =>
    rw [if_neg hs] at h
    split
    · rfl
    · next hreplaces =>
      rw [if_neg hreplaces] at h
      cases hjudge : w.judge a.label a.bound (pairing.partners a.label) with
      | nothingNew => rfl
      | narrows narrowed => rfl
      | clashes clashing existing incoming =>
        rw [hjudge] at h
        cases h

/-- Under the abort policy, an assertion with a conflict does nothing but report it. -/
theorem Interpretation.assertOn_abort {i : Interpretation} {a : Assertion} {w : World} {c : Conflict}
    (hp : config.policy = .abort) (h : a.conflict? pairing w = some c) :
    i.assertOn config pairing a w = ⟨i, { Outcome.nothing with conflict := some c }, []⟩ := by
  obtain ⟨hs, hreplaces, clashing, existing, incoming, hjudge, rfl⟩ := Assertion.conflict?_eq_some.1 h
  unfold assertOn
  simp only [hs, hreplaces, hjudge, hp]
  rfl

namespace Work

variable {w : Work} {e : Effect}

theorem perform_withPolicy (h : w.interpretation.conflict? pairing e = none) (p : Policy) :
    w.perform (config.withPolicy p) pairing e = w.perform config pairing e := by
  obtain ⟨i, trace, progress⟩ := w
  cases e with
  | link e => rfl
  | assert a =>
    have hassert : i.assert (config.withPolicy p) pairing a = i.assert config pairing a := by
      unfold Interpretation.assert
      cases hworld : i.world? a.component with
      | none => rfl
      | some v =>
        have hnone : a.conflict? pairing v = none := by
          simpa [Interpretation.conflict?, hworld] using h
        exact congrArg Except.ok (Interpretation.assertOn_withPolicy hnone p)
    unfold perform
    dsimp only
    rw [hassert]

theorem perform_abort (hp : config.policy = .abort) {c : Conflict}
    (h : w.interpretation.conflict? pairing e = some c) :
    w.perform config pairing e = (w, some (.conflict c)) := by
  obtain ⟨i, trace, progress⟩ := w
  cases e with
  | link e => cases h
  | assert a =>
    obtain ⟨v, hworld, hc⟩ := Option.bind_eq_some_iff.1 h
    have hrefused : Outcome.refusal? { Outcome.nothing with conflict := some c } = some c := by
      simp [Outcome.refusal?, a.resolved_conflict? hc]
    unfold perform Interpretation.assert
    simp only [hworld, Interpretation.assertOn_abort hp hc, hrefused]
    simp

/-- Under any other policy, no conflict stops the work. -/
theorem perform_ne_conflict (hp : config.policy ≠ .abort) (w : Work) (e : Effect) (c : Conflict) :
    (w.perform config pairing e).2 ≠ some (.conflict c) := by
  obtain ⟨i, trace, progress⟩ := w
  cases e with
  | link e =>
    unfold perform
    dsimp only
    split <;> simp
  | assert a =>
    unfold perform Interpretation.assert
    dsimp only
    cases i.world? a.component with
    | none => cases a.missing <;> simp [Outcome.refusal?, Outcome.nothing]
    | some v =>
      have hconflict := i.conflict_assertOn config pairing a v
      have hnone : (i.assertOn config pairing a v).outcome.refusal? = none := by
        unfold Outcome.refusal?
        rw [hconflict]
        cases a.conflict? pairing v <;> simp [hp]
      simp [hnone]

end Work

/-! ## Lockstep -/

/-- The work stopped at an attempt because of a conflict, and the attempt has left nothing behind. -/
def Attempt.StopsWork (a : Attempt) (c : Conflict) (result : Work × Option Halt) : Prop :=
  result.2 = some (.conflict c) ∧ result.1.interpretation = a.before.interpretation ∧
    result.1.trace = a.before.trace

/-- A timestep or a run stopped at an attempt because of a conflict, and the attempt has left nothing
behind. -/
def Attempt.StopsRun {α : Type} (a : Attempt) (c : Conflict) (result : Reasoner × Except Halt α) :
    Prop :=
  result.2 = .error (.conflict c) ∧ result.1.interpretation = a.before.interpretation ∧
    result.1.trace = a.before.trace

/-- The attempts of a computation under the abort policy and under another one. Either none runs into
a conflict, they are the same and so are the results; or the first stops at the first attempt with a
conflict, and the second goes on from there. -/
inductive Lockstep (pairing : Pairing) (Same : Prop) (Stops : Attempt → Conflict → Prop) :
    List Attempt → List Attempt → Prop where
  | alike {log : List Attempt} (hfree : ∀ a ∈ log, a.conflict? pairing = none) (hsame : Same) :
      Lockstep pairing Same Stops log log
  | parts {before rest : List Attempt} {a : Attempt} {c : Conflict}
      (hfree : ∀ b ∈ before, b.conflict? pairing = none) (hconflict : a.conflict? pairing = some c)
      (hstops : Stops a c) : Lockstep pairing Same Stops (before ++ [a]) (before ++ a :: rest)

/-- Two computations one after the other. The second does not start if the first has stopped. -/
theorem Lockstep.append {Same Same' : Prop} {Stops Stops' : Attempt → Conflict → Prop}
    {log log' more more' : List Attempt} (h : Lockstep pairing Same Stops log log')
    (hsame : Same → Lockstep pairing Same' Stops' more more')
    (hstops : ∀ a c, Stops a c → more = [] ∧ Stops' a c) :
    Lockstep pairing Same' Stops' (log ++ more) (log' ++ more') := by
  cases h with
  | alike hfree hfirst =>
    cases hsame hfirst with
    | alike hfree' hsecond => exact .alike (List.forall_mem_append.2 ⟨hfree, hfree'⟩) hsecond
    | parts hfree' hconflict hsecond =>
      rw [← List.append_assoc, ← List.append_assoc]
      exact .parts (List.forall_mem_append.2 ⟨hfree, hfree'⟩) hconflict hsecond
  | parts hfree hconflict hfirst =>
    obtain ⟨rfl, hsecond⟩ := hstops _ _ hfirst
    rw [List.append_nil, List.append_assoc]
    exact .parts hfree hconflict hsecond

/-- If nothing is attempted, the results are the same. -/
theorem Lockstep.nil {Same : Prop} {Stops : Attempt → Conflict → Prop} (h : Same) :
    Lockstep pairing Same Stops [] [] :=
  .alike (by simp) h

theorem Lockstep.map {Same Same' : Prop} {Stops Stops' : Attempt → Conflict → Prop}
    {log log' : List Attempt} (h : Lockstep pairing Same Stops log log') (hsame : Same → Same')
    (hstops : ∀ a c, Stops a c → Stops' a c) : Lockstep pairing Same' Stops' log log' := by
  cases h with
  | alike hfree h => exact .alike hfree (hsame h)
  | parts hfree hconflict h => exact .parts hfree hconflict (hstops _ _ h)

/-- There is one first member with a property, however a list is taken apart. -/
theorem eq_of_first {α : Type} {P : α → Prop} {xs ys us vs : List α} {a b : α}
    (h : xs ++ a :: us = ys ++ b :: vs) (hxs : ∀ x ∈ xs, ¬ P x) (ha : P a) (hys : ∀ y ∈ ys, ¬ P y)
    (hb : P b) : xs = ys ∧ a = b := by
  induction xs generalizing ys with
  | nil =>
    cases ys with
    | nil =>
      cases h
      exact ⟨rfl, rfl⟩
    | cons y ys =>
      cases h
      exact absurd ha (hys a (by simp))
  | cons x xs ih =>
    cases ys with
    | nil =>
      cases h
      exact absurd hb (hxs b (by simp))
    | cons y ys =>
      injection h with hxy h
      obtain ⟨rfl, rfl⟩ := ih h (fun x hx => hxs x (by simp [hx])) fun y hy => hys y (by simp [hy])
      exact ⟨by rw [hxy], rfl⟩

namespace Lockstep

variable {Same : Prop} {Stops : Attempt → Conflict → Prop} {log log' : List Attempt}

/-- What is attempted under the abort policy comes first under the other one. -/
theorem isPrefix (h : Lockstep pairing Same Stops log log') : log <+: log' := by
  cases h with
  | alike => exact List.prefix_refl _
  | parts => exact (List.prefix_append_right_inj _).2 (List.cons_prefix_cons.2 ⟨rfl, List.nil_prefix⟩)

/-- Without a conflict, all is the same. -/
theorem of_free (h : Lockstep pairing Same Stops log log')
    (hfree : ∀ a ∈ log, a.conflict? pairing = none) : log' = log ∧ Same := by
  cases h with
  | alike _ hsame => exact ⟨rfl, hsame⟩
  | parts _ hconflict =>
    rw [hfree _ (by simp)] at hconflict
    cases hconflict

/-- The computation under the abort policy stops at the first conflict of the other one. -/
theorem of_conflict {before rest : List Attempt} {a : Attempt} {c : Conflict}
    (h : Lockstep pairing Same Stops log (before ++ a :: rest))
    (hfree : ∀ b ∈ before, b.conflict? pairing = none) (hconflict : a.conflict? pairing = some c) :
    log = before ++ [a] ∧ Stops a c := by
  generalize hlog' : before ++ a :: rest = log' at h
  cases h with
  | alike hfree' =>
    rw [hfree' a (by simp [← hlog'])] at hconflict
    cases hconflict
  | @parts first _ b d hfree' hconflict' hstops =>
    have hfirst := eq_of_first (P := fun b : Attempt => b.conflict? pairing ≠ none) hlog'
      (fun b hb h => h (hfree b hb)) (by simp [hconflict])
      (fun b hb h => h (hfree' b hb)) (by simp [hconflict'])
    obtain ⟨rfl, rfl⟩ := hfirst
    cases hconflict.symm.trans hconflict'
    exact ⟨rfl, hstops⟩

end Lockstep

/-- Folds keep step if their steps do. -/
theorem foldUntil_lockstep {α : Type} {step step' : Work → α → Work × Option Halt}
    {log log' : Work → α → List Attempt}
    (hstep : ∀ w x, Lockstep pairing (step' w x = step w x)
      (fun a c => a.StopsWork c (step w x)) (log w x) (log' w x)) (w : Work) (xs : List α) :
    Lockstep pairing (foldUntil step' w xs = foldUntil step w xs)
      (fun a c => a.StopsWork c (foldUntil step w xs)) (logUntil step log w xs)
      (logUntil step' log' w xs) := by
  induction xs generalizing w with
  | nil => exact .nil rfl
  | cons x xs ih =>
    rw [logUntil, logUntil, foldUntil, foldUntil]
    refine (hstep w x).append (fun hsame => ?_) (fun a c hstops => ?_)
    · rw [hsame]
      rcases step w x with ⟨u, _ | halt⟩
      · exact ih u
      · exact .nil rfl
    · rcases hx : step w x with ⟨u, _ | halt⟩ <;> rw [hx] at hstops
      · cases hstops.1
      · exact ⟨rfl, hstops⟩

theorem Work.performAll_lockstep (hp : config.policy = .abort) (p : Policy) (w : Work)
    (effects : List Effect) :
    Lockstep pairing
      (w.performAll (config.withPolicy p) pairing effects = w.performAll config pairing effects)
      (fun a c => a.StopsWork c (w.performAll config pairing effects))
      (w.attempts config pairing effects) (w.attempts (config.withPolicy p) pairing effects) := by
  refine foldUntil_lockstep (fun w e => ?_) w effects
  cases hc : w.interpretation.conflict? pairing e with
  | none => exact .alike (by simpa [Attempt.conflict?] using hc) (perform_withPolicy hc p)
  | some c =>
    have hstops : Attempt.StopsWork ⟨w, e⟩ c (w.perform config pairing e) := by
      rw [perform_abort hp hc]
      exact ⟨rfl, rfl, rfl⟩
    exact @Lockstep.parts pairing _ _ [] [] ⟨w, e⟩ c (by simp) hc hstops

end AnnotatedLogic
