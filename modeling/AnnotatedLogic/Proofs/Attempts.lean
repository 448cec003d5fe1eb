import AnnotatedLogic.Proofs.Starts
import AnnotatedLogic.Proofs.Timestep
/-!
# What is attempted

A timestep carries out effects one after the other. Its attempts are these effects, each with the
state that it finds; a run and a call have the attempts of their timesteps.

* `Assertion.conflict?`, `Attempt.conflict?`: the conflict that an assertion runs into. It does not
  depend on the policy; `Assertion.conflict?_eq_some` says when there is one, and `conflict_assertOn` what
  the assertion reports of it.
* `Work.attempts`, `Reasoner.iterateAttempts`, `Reasoner.attempts`, `Reasoner.runAttempts`,
  `Reasoner.callAttempts`: the attempts of ever more.
* `KeptByEffects`: what every effect keeps; `KeptByEffects.fixpoint` says that the loop keeps it, and
  `KeptByEffects.timestepAttempts` that it holds at every attempt.
* `KeptUnless`: what effects keep but for some attempts; `KeptUnless.timestep` says that a timestep keeps
  it unless one of its attempts is such.
* `timestep_halt`, `runFrom_halt`: whatever stops a timestep or a run stops it at one of its attempts.
-/

namespace AnnotatedLogic

/-- One effect on the way of a timestep, with the state that it finds. -/
structure Attempt where
  before : Work
  effect : Effect
deriving DecidableEq

/-- The conflict that an assertion runs into, before any policy deals with it. Static labels and bounds
that replace others run into none. -/
def Assertion.conflict? (a : Assertion) (pairing : Pairing) (w : World) : Option Conflict :=
  if w.isStatic a.label then none
  else if a.replaces then none
  else
    match w.judge a.label a.bound (pairing.partners a.label) with
    | .clashes clashing existing incoming =>
      some ⟨a.component, a.label, clashing, existing, incoming, false⟩
    | .nothingNew | .narrows _ => none

/-- The conflict that an effect runs into. -/
def Interpretation.conflict? (i : Interpretation) (pairing : Pairing) : Effect → Option Conflict
  | .link _ => none
  | .assert a => (i.world? a.component).bind (a.conflict? pairing)

/-- The conflict that an attempt runs into. -/
def Attempt.conflict? (pairing : Pairing) (a : Attempt) : Option Conflict :=
  a.before.interpretation.conflict? pairing a.effect

/-- An assertion runs into a conflict if it narrows an atom that is not static, and clashes. -/
theorem Assertion.conflict?_eq_some {a : Assertion} {pairing : Pairing} {w : World} {c : Conflict} :
    a.conflict? pairing w = some c ↔
      w.isStatic a.label = false ∧ a.replaces = false ∧ ∃ clashing existing incoming,
        w.judge a.label a.bound (pairing.partners a.label) = .clashes clashing existing incoming ∧
          c = ⟨a.component, a.label, clashing, existing, incoming, false⟩ := by
  unfold conflict?
  cases w.isStatic a.label <;> cases a.replaces <;>
    cases w.judge a.label a.bound (pairing.partners a.label) <;> simp [eq_comm]

/-- A conflict is not resolved until a policy deals with it. -/
theorem Assertion.resolved_conflict? {a : Assertion} {pairing : Pairing} {w : World} {c : Conflict}
    (h : a.conflict? pairing w = some c) : c.resolved = false := by
  obtain ⟨-, -, clashing, existing, incoming, -, rfl⟩ := conflict?_eq_some.1 h
  rfl

theorem Assertion.component_conflict? {a : Assertion} {pairing : Pairing} {w : World} {c : Conflict}
    (h : a.conflict? pairing w = some c) : c.component = a.component ∧ c.label = a.label := by
  obtain ⟨-, -, clashing, existing, incoming, -, rfl⟩ := conflict?_eq_some.1 h
  exact ⟨rfl, rfl⟩

theorem Attempt.resolved_conflict? {a : Attempt} {pairing : Pairing} {c : Conflict}
    (h : a.conflict? pairing = some c) : c.resolved = false := by
  obtain ⟨before, e | a⟩ := a
  · cases h
  · obtain ⟨w, -, hc⟩ := Option.bind_eq_some_iff.1 h
    exact a.resolved_conflict? hc

/-- An assertion reports the conflict that it runs into: as resolved, unless the policy is to abort. -/
theorem Interpretation.conflict_assertOn (i : Interpretation) (config : Config) (pairing : Pairing)
    (a : Assertion) (w : World) :
    (i.assertOn config pairing a w).outcome.conflict =
      (a.conflict? pairing w).map fun c =>
        { c with resolved := decide (config.policy ≠ .abort) } := by
  unfold assertOn Assertion.conflict?
  dsimp only
  split
  · rfl
  · split
    · rfl
    · cases w.judge a.label a.bound (pairing.partners a.label) with
      | nothingNew => rfl
      | narrows narrowed => rfl
      | clashes clashing existing incoming => cases config.policy <;> rfl

/-! ## The attempts of a timestep -/

namespace Work

/-- The attempts of effects that are carried out one after the other. -/
def attempts (config : Config) (pairing : Pairing) (w : Work) (effects : List Effect) :
    List Attempt :=
  logUntil (perform config pairing) (fun w e => [⟨w, e⟩]) w effects

/-- What stops effects stops them at an attempt. -/
theorem performAll_halt {config : Config} {pairing : Pairing} {w : Work} {effects : List Effect}
    {halt : Halt} (h : (w.performAll config pairing effects).2 = some halt) :
    ∃ a ∈ w.attempts config pairing effects,
      (a.before.perform config pairing a.effect).2 = some halt :=
  exists_mem_logUntil (R := fun a : Attempt => fun halt =>
    (a.before.perform config pairing a.effect).2 = some halt)
    (fun w e _ hhalt => ⟨⟨w, e⟩, List.mem_singleton_self _, hhalt⟩) h

end Work

namespace Reasoner

/-- The attempts of one iteration. -/
def iterateAttempts (r : Reasoner) (t iteration : Nat) (w : Work) : List Attempt :=
  logUntil (Work.performStage r.config r.pairing)
    (fun w stage => w.attempts r.config r.pairing (stage w.interpretation)) w (r.stages t iteration)

/-- The attempts of the loop. -/
def loopAttempts (r : Reasoner) (t more iteration : Nat) (w : Work) : List Attempt :=
  (r.passes t more iteration w).flatMap fun p => r.iterateAttempts t p.iteration p.before

/-- The attempts of a timestep after its facts: those of the firings that are due, and of the loop. -/
def attemptsAfterFacts (r : Reasoner) (t : Nat) (u : Work) : List Attempt :=
  u.attempts r.config r.pairing (r.dueEffects t) ++
    match u.performAll r.config r.pairing (r.dueEffects t) with
    | (_, some _) => []
    | (v, none) => r.loopAttempts t (r.config.maxIterations - 1) 1 v

/-- The attempts of a timestep: those of its facts, of the firings that are due, and of the loop. -/
def attempts (r : Reasoner) (t : Nat) : List Attempt :=
  (r.startWork t).attempts r.config r.pairing (r.factEffects t) ++
    match (r.startWork t).performAll r.config r.pairing (r.factEffects t) with
    | (_, some _) => []
    | (u, none) => r.attemptsAfterFacts t u

/-- The attempts of a run. -/
def runAttempts (r : Reasoner) (more : Nat) : List Attempt :=
  (r.runStarts more).flatMap fun s => s.attempts s.nextTime

/-- The attempts of a call. -/
def callAttempts (r : Reasoner) (c : Call) : List Attempt :=
  (r.callStarts c).flatMap fun s => s.attempts s.nextTime

theorem loopAttempts_zero (r : Reasoner) (t iteration : Nat) (w : Work) :
    r.loopAttempts t 0 iteration w = r.iterateAttempts t iteration { w with progress := .nothing } := by
  unfold loopAttempts
  rw [passes, List.flatMap_singleton]
  rfl

/-- The attempts of an iteration are followed by those of the rest of the loop. -/
theorem loopAttempts_succ (r : Reasoner) (t more iteration : Nat) (w : Work) :
    r.loopAttempts t (more + 1) iteration w =
      r.iterateAttempts t iteration { w with progress := .nothing } ++
        if r.goesOn (r.pass t iteration w) then
          r.loopAttempts t more (iteration + 1) ((r.pass t iteration w).total w)
        else [] := by
  unfold loopAttempts
  rw [passes, passes_total]
  split
  · rw [List.flatMap_cons]
    rfl
  · rw [List.flatMap_singleton, List.append_nil]
    rfl

/-- The last attempts of a timestep are those of its loop. -/
theorem attempts_of_loopStart? {r : Reasoner} {t : Nat} {v : Work} (h : r.loopStart? t = some v) :
    ∃ before, r.attempts t = before ++ r.loopAttempts t (r.config.maxIterations - 1) 1 v := by
  unfold attempts attemptsAfterFacts
  revert h
  unfold loopStart?
  rcases (r.startWork t).performAll r.config r.pairing (r.factEffects t) with ⟨u, _ | halt⟩
  · dsimp only
    rcases u.performAll r.config r.pairing (r.dueEffects t) with ⟨w, _ | halt⟩
    · rintro ⟨⟩
      exact ⟨_, (List.append_assoc ..).symm⟩
    · rintro ⟨⟩
  · rintro ⟨⟩

/-- What a pass of a timestep attempts, the timestep attempts. -/
theorem mem_attempts_of_mem_timestepPasses {r : Reasoner} {t : Nat} {p : Pass}
    (hp : p ∈ r.timestepPasses t) {x : Attempt} (hx : x ∈ r.iterateAttempts t p.iteration p.before) :
    x ∈ r.attempts t := by
  obtain ⟨v, hv, hpasses⟩ := exists_loopStart (List.ne_nil_of_mem hp)
  obtain ⟨before, hattempts⟩ := attempts_of_loopStart? hv
  rw [hattempts]
  exact List.mem_append_right _ (List.mem_flatMap.2 ⟨p, hpasses ▸ hp, hx⟩)

theorem runAttempts_zero (r : Reasoner) : r.runAttempts 0 = r.attempts r.nextTime := by
  unfold runAttempts
  rw [runStarts, List.flatMap_singleton]

/-- The attempts of a timestep are followed by those of the rest of the run. -/
theorem runAttempts_succ (r : Reasoner) (more : Nat) :
    r.runAttempts (more + 1) =
      r.attempts r.nextTime ++
        match r.next? more with
        | none => []
        | some s => s.runAttempts more := by
  unfold runAttempts
  rw [runStarts, List.flatMap_cons]
  cases r.next? more <;> rfl

theorem callAttempts_of_runOf? {r s : Reasoner} {c : Call} {more : Nat}
    (h : r.runOf? c = some (s, more)) : r.callAttempts c = s.runAttempts more := by
  unfold callAttempts
  rw [callStarts_of_runOf? h]
  rfl

theorem callAttempts_of_runOf?_eq_none {r : Reasoner} {c : Call} (h : r.runOf? c = none) :
    r.callAttempts c = [] := by
  unfold callAttempts callStarts
  rw [h]
  rfl

/-! ## What holds at every attempt -/

/-- `P` does not look at the progress, and effects with `Q` keep it. -/
structure KeptByEffects (r : Reasoner) (Q : Effect → Prop) (P : Work → Prop) : Prop where
  progress {w} : P w → ∀ progress, P { w with progress := progress }
  perform {w e} : P w → Q e → P (w.perform r.config r.pairing e).1

/-- The stages ask for effects with `Q` wherever they look at an interpretation with `P`. -/
def Asks (r : Reasoner) (t : Nat) (Q : Effect → Prop) (P : Work → Prop) : Prop :=
  ∀ {iteration stage w}, stage ∈ r.stages t iteration → P w → ∀ e ∈ stage w.interpretation, Q e

namespace KeptByEffects

variable {r : Reasoner} {t : Nat} {Q : Effect → Prop} {P : Work → Prop}

theorem performAll (h : r.KeptByEffects Q P) {w : Work} (hw : P w) {effects : List Effect}
    (he : ∀ e ∈ effects, Q e) : P (w.performAll r.config r.pairing effects).1 :=
  foldUntil_invariant_mem (P := P) (fun e hmem _ hu => h.perform hu (he e hmem)) hw

theorem attempts (h : r.KeptByEffects Q P) {w : Work} (hw : P w) {effects : List Effect}
    (he : ∀ e ∈ effects, Q e) :
    ∀ a ∈ w.attempts r.config r.pairing effects, P a.before ∧ Q a.effect := by
  refine forall_mem_logUntil (P := P) (fun e hmem u hu => ⟨h.perform hu (he e hmem), fun a ha => ?_⟩) hw
  obtain rfl := List.mem_singleton.1 ha
  exact ⟨hu, he e hmem⟩

theorem iterate (h : r.KeptByEffects Q P) (hQ : Asks r t Q P) {w : Work} (hw : P w)
    (iteration : Nat) : P (r.iterate t iteration w).1 :=
  foldUntil_invariant_mem (P := P) (fun _ hstage _ hu => h.performAll hu (hQ hstage hu)) hw

theorem iterateAttempts (h : r.KeptByEffects Q P) (hQ : Asks r t Q P) {w : Work} (hw : P w)
    (iteration : Nat) : ∀ a ∈ r.iterateAttempts t iteration w, P a.before ∧ Q a.effect :=
  forall_mem_logUntil (P := P)
    (fun _ hstage _ hu => ⟨h.performAll hu (hQ hstage hu), h.attempts hu (hQ hstage hu)⟩) hw

/-- What effects keep holds before and after every pass of the loop. -/
theorem passes (h : r.KeptByEffects Q P) (hQ : Asks r t Q P) (more : Nat) {w : Work} (hw : P w)
    (iteration : Nat) : ∀ p ∈ r.passes t more iteration w, P p.before ∧ P p.after := by
  have hpass {w : Work} (hw : P w) (iteration : Nat) :
      P (r.pass t iteration w).before ∧ P (r.pass t iteration w).after :=
    ⟨h.progress hw _, h.iterate hQ (h.progress hw _) iteration⟩
  induction more generalizing iteration w with
  | zero =>
    intro p hp
    rw [List.mem_singleton.1 hp]
    exact hpass hw iteration
  | succ more ih =>
    intro p hp
    rw [Reasoner.passes] at hp
    split at hp
    · rcases List.mem_cons.1 hp with rfl | hp
      · exact hpass hw iteration
      · exact ih (hpass hw iteration).2 (iteration + 1) p hp
    · rw [List.mem_singleton.1 hp]
      exact hpass hw iteration

theorem loopAttempts (h : r.KeptByEffects Q P) (hQ : Asks r t Q P) (more : Nat) {w : Work} (hw : P w)
    (iteration : Nat) : ∀ a ∈ r.loopAttempts t more iteration w, P a.before ∧ Q a.effect := by
  intro a ha
  obtain ⟨p, hp, ha⟩ := List.mem_flatMap.1 ha
  exact h.iterateAttempts hQ (h.passes hQ more hw iteration p hp).1 p.iteration a ha

theorem fixpoint (h : r.KeptByEffects Q P) (hQ : Asks r t Q P) (more : Nat) {w : Work} (hw : P w)
    (iteration : Nat) : P (r.fixpoint t more iteration w).1 := by
  obtain ⟨last, hlast, hi, htrace, -⟩ := r.fixpoint_last t more iteration w
  have hafter := (h.passes hQ more hw iteration last (List.mem_of_getLast? hlast)).2
  have hsame : (r.fixpoint t more iteration w).1
      = { last.after with progress := (r.fixpoint t more iteration w).1.progress } := by
    dsimp only
    rw [← hi, ← htrace]
  rw [hsame]
  exact h.progress hafter _

/-- What effects keep holds at every attempt of a timestep, and what facts, firings and stages ask for
is what is attempted. -/
theorem timestepAttempts (h : r.KeptByEffects Q P) (hstart : P (r.startWork t))
    (hfacts : ∀ e ∈ r.factEffects t, Q e) (hdue : ∀ e ∈ r.dueEffects t, Q e) (hQ : Asks r t Q P) :
    ∀ a ∈ r.attempts t, P a.before ∧ Q a.effect := by
  have hafterFacts := h.performAll hstart hfacts
  intro a ha
  unfold Reasoner.attempts attemptsAfterFacts at ha
  rcases List.mem_append.1 ha with ha | ha
  · exact h.attempts hstart hfacts a ha
  · split at ha
    · cases ha
    · next u hu =>
      rw [hu] at hafterFacts
      have hafterDue := h.performAll hafterFacts hdue
      rcases List.mem_append.1 ha with ha | ha
      · exact h.attempts hafterFacts hdue a ha
      · split at ha
        · cases ha
        · next v hv =>
          rw [hv] at hafterDue
          exact h.loopAttempts hQ _ hafterDue 1 a ha

/-- What all effects of a timestep keep holds before and after every pass of its loop. -/
theorem timestepPasses (h : r.KeptByEffects Q P) (hstart : P (r.startWork t))
    (hQ : ∀ {iteration e}, r.Performs t iteration e → Q e) :
    ∀ p ∈ r.timestepPasses t, P p.before ∧ P p.after := by
  intro p hp
  obtain ⟨v, hv, hpasses⟩ := exists_loopStart (List.ne_nil_of_mem hp)
  have hafterDue : P v := by
    have hafterFacts := h.performAll hstart fun _ he => hQ (performs_of_mem_factEffects he)
    unfold loopStart? at hv
    split at hv
    · cases hv
    · next u hu =>
      rw [hu] at hafterFacts
      have hafterDue := h.performAll hafterFacts fun _ he => hQ (performs_of_mem_dueEffects he)
      split at hv
      · cases hv
      · next hw =>
        cases hv
        rw [hw] at hafterDue
        exact hafterDue
  exact h.passes (fun hstage _ _ he => hQ (performs_of_mem_stage hstage he)) _ hafterDue 1 p
    (hpasses ▸ hp)

end KeptByEffects

/-! ## What effects keep, but for some attempts -/

/-- `P` does not look at the progress, and effects keep it unless the attempt is one of `Bad`. -/
structure KeptUnless (r : Reasoner) (Bad : Attempt → Prop) (P : Work → Prop) : Prop where
  progress {w} : P w → ∀ progress, P { w with progress := progress }
  perform {w} : P w → ∀ e, P (w.perform r.config r.pairing e).1 ∨ Bad ⟨w, e⟩

namespace KeptUnless

variable {r : Reasoner} {t : Nat} {Bad : Attempt → Prop} {P : Work → Prop}

theorem performAll (h : r.KeptUnless Bad P) {w : Work} (hw : P w) (effects : List Effect) :
    P (w.performAll r.config r.pairing effects).1 ∨
      ∃ a ∈ w.attempts r.config r.pairing effects, Bad a := by
  refine foldUntil_invariant_log (P := P) (fun e _ u hu => ?_) hw
  rcases h.perform hu e with hkept | hbad
  · exact .inl hkept
  · exact .inr ⟨_, List.mem_singleton_self _, hbad⟩

theorem iterate (h : r.KeptUnless Bad P) {w : Work} (hw : P w) (iteration : Nat) :
    P (r.iterate t iteration w).1 ∨ ∃ a ∈ r.iterateAttempts t iteration w, Bad a :=
  foldUntil_invariant_log (P := P) (fun _ _ _ hu => h.performAll hu _) hw

theorem fixpoint (h : r.KeptUnless Bad P) {w : Work} (hw : P w) (more iteration : Nat) :
    P (r.fixpoint t more iteration w).1 ∨ ∃ a ∈ r.loopAttempts t more iteration w, Bad a := by
  induction more generalizing iteration w with
  | zero =>
    rw [loopAttempts_zero, fixpoint_zero]
    rcases h.iterate (t := t) (h.progress hw .nothing) iteration with hkept | hbad
    · exact .inl (h.progress hkept _)
    · exact .inr hbad
  | succ more ih =>
    rw [loopAttempts_succ, fixpoint_succ]
    rcases h.iterate (t := t) (h.progress hw .nothing) iteration with hkept | ⟨a, ha, hbad⟩
    · have htotal : P ((r.pass t iteration w).total w) := h.progress hkept _
      split
      · rcases ih htotal (iteration + 1) with hrest | ⟨a, ha, hbad⟩
        · exact .inl hrest
        · exact .inr ⟨a, List.mem_append_right _ ha, hbad⟩
      · exact .inl htotal
    · exact .inr ⟨a, List.mem_append_left _ ha, hbad⟩

/-- What holds after the facts of a timestep holds at its end, unless a later attempt is bad. -/
theorem afterFacts (h : r.KeptUnless Bad P) {u : Work}
    (hfacts : (r.startWork t).performAll r.config r.pairing (r.factEffects t) = (u, none))
    (hu : P u) :
    (∃ w, P w ∧ (r.timestep t).1.interpretation = w.interpretation) ∨
      ∃ a ∈ r.attemptsAfterFacts t u, Bad a := by
  have hafterDue := h.performAll hu (r.dueEffects t)
  have hpassage := r.timestep_passage t
  generalize r.timestep t = result at hpassage
  unfold attemptsAfterFacts
  cases hpassage with
  | facts hstops =>
    rw [hfacts] at hstops
    cases hstops
  | due hagain hdue =>
    cases hfacts.symm.trans hagain
    rw [hdue] at hafterDue ⊢
    rcases hafterDue with hw | ⟨a, ha, hbad⟩
    · exact .inl ⟨_, hw, rfl⟩
    · exact .inr ⟨a, List.mem_append_left _ ha, hbad⟩
  | loop hagain hdue hloop | completed hagain hdue hloop =>
    cases hfacts.symm.trans hagain
    rw [hdue] at hafterDue ⊢
    rcases hafterDue with hv | ⟨a, ha, hbad⟩
    · have hafterLoop := h.fixpoint (t := t) hv (r.config.maxIterations - 1) 1
      rw [hloop] at hafterLoop
      rcases hafterLoop with hw | ⟨a, ha, hbad⟩
      · exact .inl ⟨_, hw, rfl⟩
      · exact .inr ⟨a, List.mem_append_right _ ha, hbad⟩
    · exact .inr ⟨a, List.mem_append_left _ ha, hbad⟩

/-- What effects keep unless some attempt is bad, a timestep keeps unless one of its attempts is. -/
theorem timestep (h : r.KeptUnless Bad P) (hstart : P (r.startWork t)) :
    (∃ w, P w ∧ (r.timestep t).1.interpretation = w.interpretation) ∨
      ∃ a ∈ r.attempts t, Bad a := by
  have hafterFacts := h.performAll hstart (r.factEffects t)
  unfold Reasoner.attempts
  rcases hfacts : (r.startWork t).performAll r.config r.pairing (r.factEffects t) with ⟨u, _ | halt⟩ <;>
    rw [hfacts] at hafterFacts
  · rcases hafterFacts with hu | ⟨a, ha, hbad⟩
    · rcases h.afterFacts hfacts hu with hw | ⟨a, ha, hbad⟩
      · exact .inl hw
      · exact .inr ⟨a, List.mem_append_right _ ha, hbad⟩
    · exact .inr ⟨a, List.mem_append_left _ ha, hbad⟩
  · rcases hafterFacts with hu | ⟨a, ha, hbad⟩
    · rw [(Passage.facts hfacts).eq]
      exact .inl ⟨u, hu, rfl⟩
    · exact .inr ⟨a, List.mem_append_left _ ha, hbad⟩

end KeptUnless

/-- An attempt of a call is one of a timestep of its run. -/
theorem exists_start_of_mem_callAttempts {r : Reasoner} {c : Call} {a : Attempt}
    (h : a ∈ r.callAttempts c) : ∃ s ∈ r.callStarts c, a ∈ s.attempts s.nextTime :=
  List.mem_flatMap.1 h

/-! ## Where a run stops -/

/-- Something stopped at an attempt. -/
def Stops (r : Reasoner) (attempts : List Attempt) (halt : Halt) : Prop :=
  ∃ a ∈ attempts, (a.before.perform r.config r.pairing a.effect).2 = some halt

theorem Stops.mono {r : Reasoner} {attempts more : List Attempt} {halt : Halt}
    (h : r.Stops attempts halt) (hsub : attempts ⊆ more) : r.Stops more halt := by
  obtain ⟨a, ha, hhalt⟩ := h
  exact ⟨a, hsub ha, hhalt⟩

theorem iterate_halt {r : Reasoner} {t iteration : Nat} {w : Work} {halt : Halt}
    (h : (r.iterate t iteration w).2 = some halt) :
    r.Stops (r.iterateAttempts t iteration w) halt :=
  exists_mem_logUntil (R := fun a : Attempt => fun halt =>
    (a.before.perform r.config r.pairing a.effect).2 = some halt)
    (fun _ _ _ hhalt => Work.performAll_halt hhalt) h

theorem fixpoint_halt {r : Reasoner} {t more iteration : Nat} {w : Work} {halt : Halt}
    (h : (r.fixpoint t more iteration w).2 = some halt) :
    r.Stops (r.loopAttempts t more iteration w) halt := by
  obtain ⟨last, hlast, -, -, hhalt⟩ := r.fixpoint_last t more iteration w
  have hmem := List.mem_of_getLast? hlast
  obtain ⟨-, hiterate⟩ := iterate_of_mem_passes hmem
  have hstops : (r.iterate t last.iteration last.before).2 = some halt := by
    rw [hiterate, ← hhalt, h]
  exact (iterate_halt hstops).mono fun a ha => List.mem_flatMap.2 ⟨last, hmem, ha⟩

/-- Whatever stops a timestep stops it at one of its attempts. -/
theorem timestep_halt {r s : Reasoner} {t : Nat} {halt : Halt}
    (h : r.timestep t = (s, .error halt)) : r.Stops (r.attempts t) halt := by
  have hpassage := r.timestep_passage t
  rw [h] at hpassage
  unfold attempts attemptsAfterFacts
  cases hpassage with
  | @facts w _ hfacts =>
    have hstops : r.Stops _ halt := Work.performAll_halt (by rw [hfacts])
    exact hstops.mono (List.subset_append_left _ _)
  | @due u w _ hfacts hdue =>
    have hstops : r.Stops (u.attempts r.config r.pairing (r.dueEffects t)) halt :=
      Work.performAll_halt (by rw [hdue])
    rw [hfacts]
    exact hstops.mono (List.Subset.trans (List.subset_append_left _ _) (List.subset_append_right _ _))
  | @loop u v w _ hfacts hdue hloop =>
    have hstops : r.Stops (r.loopAttempts t (r.config.maxIterations - 1) 1 v) halt :=
      fixpoint_halt (by rw [hloop])
    rw [hfacts]
    dsimp only
    rw [hdue]
    exact hstops.mono (List.Subset.trans (List.subset_append_right _ _) (List.subset_append_right _ _))

/-- Whatever stops a run stops it at one of its attempts. -/
theorem runFrom_halt {r : Reasoner} {more : Nat} {halt : Halt}
    (h : (r.runFrom more r.nextTime).2 = .error halt) : r.Stops (r.runAttempts more) halt := by
  have hends := r.runFrom_ends more
  generalize r.runFrom more r.nextTime = result at h hends
  cases hends with
  | @stopped earlier last s stop hstarts hstep =>
    cases h
    have hlast : last ∈ r.runStarts more := by
      rw [hstarts]
      simp
    have hsetup := sameSetup_of_mem_runStarts hlast
    obtain ⟨a, ha, hhalt⟩ := timestep_halt hstep
    rw [hsetup.config, hsetup.pairing] at hhalt
    exact ⟨a, List.mem_flatMap.2 ⟨last, hlast, ha⟩, hhalt⟩
  | early => cases h
  | horizon => cases h

end Reasoner

end AnnotatedLogic
