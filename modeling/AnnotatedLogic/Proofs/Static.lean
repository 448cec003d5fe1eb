import AnnotatedLogic.Proofs.Execution
import AnnotatedLogic.Proofs.Frozen
import AnnotatedLogic.Proofs.Underway
/-!
# Values of static atoms

A static atom keeps its value: its bounds, the previous ones and that it is static. Each operation has
to respect this on its own: the label of an assertion, its opposites, a forced write, a new edge and a
reset. One thing does not: under the resolve policy, a conflict on another label to which the atom is
opposite lets go of the atom.

* `Interpretation.Fixes`: an atom is static and has a value.
* `Assertion.Thaws`: the one exception.
* `Fixes.assert_of_thaws`, `Fixes.assert`, `Fixes.addEdge`, `Fixes.reset`: one operation.
* `Sound.timestep_fixes`, `Sound.runFrom_fixes`, `Sound.call_fixes`: timesteps, runs and calls.
* `Reasoner.static_atoms_kept`: all of it, of every state that calls lead to.
-/

namespace AnnotatedLogic

/-- The atom is static, and this is its value. -/
structure Interpretation.Fixes (i : Interpretation) (c : Component) (l : Label) (v : Interval) :
    Prop where
  bound : i.bound? c l = some v
  static : v.isStatic = true

/-- The assertion reports a conflict that the policy resolves, and the atom is one of the same component
whose label is another one than that of the assertion and opposite to it. -/
structure Assertion.Thaws (config : Config) (pairing : Pairing) (a : Assertion) (response : Response)
    (c : Component) (l : Label) : Prop where
  policy : config.policy = .resolve
  component : a.component = c
  label : a.label ≠ l
  opposite : l ∈ pairing.partners a.label
  conflict : ∃ conflict, response.outcome.conflict = some conflict

/-- The attempt is an assertion that thaws the atom. -/
def Attempt.Thaws (config : Config) (pairing : Pairing) (c : Component) (l : Label) (x : Attempt) :
    Prop :=
  ∃ a response, x.effect = .assert a ∧
    x.before.interpretation.assert config pairing a = .ok response ∧
    a.Thaws config pairing response c l

namespace Interpretation

variable {config : Config} {pairing : Pairing} {i : Interpretation} {c : Component} {l : Label}
  {v : Interval} {a : Assertion} {response : Response}

/-! ## One operation -/

/-- An assertion is passed over where its component is not there. -/
theorem assert_cases (h : i.assert config pairing a = .ok response) :
    (∃ w, i.world? a.component = some w ∧ response = i.assertOn config pairing a w) ∨
      i.world? a.component = none ∧ response = ⟨i, .nothing, []⟩ := by
  unfold assert at h
  split at h
  · next w hw =>
    cases h
    exact .inl ⟨w, hw, rfl⟩
  · next hw =>
    split at h <;> cases h
    exact .inr ⟨hw, rfl⟩

theorem assert_of_world? (config : Config) (pairing : Pairing) {w : World}
    (h : i.world? a.component = some w) :
    i.assert config pairing a = .ok (i.assertOn config pairing a w) := by
  unfold assert
  rw [h]

/-- What an assertion reports of a conflict is that it has run into one. -/
theorem exists_conflict_assertOn {w : World} :
    (∃ conflict, (i.assertOn config pairing a w).outcome.conflict = some conflict) ↔
      ∃ conflict, a.conflict? pairing w = some conflict := by
  rw [conflict_assertOn]
  cases a.conflict? pairing w <;> simp

theorem Fixes.world? (h : i.Fixes c l v) :
    ∃ w, i.world? c = some w ∧ w.get? l = some v ∧ w.isStatic l = true := by
  obtain ⟨w, hw, hv⟩ := Option.bind_eq_some_iff.1 h.bound
  exact ⟨w, hw, hv, (World.isStatic_of_get? hv).trans h.static⟩

/-- An assertion that thaws a static atom makes it unknown and no longer static. -/
theorem Fixes.assert_of_thaws (h : i.Fixes c l v) (hassert : i.assert config pairing a = .ok response)
    (ht : a.Thaws config pairing response c l) :
    response.interpretation.bound? c l = some v.thawed := by
  obtain ⟨hpolicy, rfl, -, hopposite, hconflict⟩ := ht
  obtain ⟨w, hw, hv, -⟩ := h.world?
  rw [assert_of_world? config pairing hw] at hassert
  cases hassert
  obtain ⟨conflict, hconflict⟩ := exists_conflict_assertOn.1 hconflict
  rw [bound?_of_world? (world?_assertOn_of_conflict? hpolicy hconflict), World.get?_forgetAll,
    if_pos (List.mem_cons_of_mem _ hopposite), World.bound_of_get? hv]

/-- Any other assertion leaves a static atom as it is. -/
theorem Fixes.assert (h : i.Fixes c l v) (hassert : i.assert config pairing a = .ok response)
    (ht : ¬ a.Thaws config pairing response c l) : response.interpretation.Fixes c l v := by
  refine ⟨?_, h.static⟩
  rcases assert_cases hassert with ⟨w, hw, rfl⟩ | ⟨-, rfl⟩
  · by_cases hc : c = a.component
    · subst hc
      obtain ⟨u, hu, hv, hs⟩ := h.world?
      obtain rfl : w = u := Option.some.inj (hw.symm.trans hu)
      rcases get?_assertOn_of_static config pairing hw hs with
        ⟨after, hafter, hsame⟩ | ⟨hpolicy, ⟨conflict, hconflict⟩, hmem⟩
      · rw [bound?_of_world? hafter, hsame, hv]
      · have hne := ne_label_of_conflict? hconflict hs
        have hopposite := (List.mem_cons.1 hmem).resolve_left hne
        exact absurd ⟨hpolicy, rfl, hne.symm, hopposite, exists_conflict_assertOn.2 ⟨_, hconflict⟩⟩ ht
    · unfold Interpretation.bound?
      rw [world?_assertOn hw hc]
      exact h.bound
  · exact h.bound

/-- A new edge is none of the components that are there. -/
theorem Fixes.addEdge (h : i.Fixes c l v) (hfits : i.Fits) {e : Edge} {j : Interpretation}
    (hadd : i.addEdge e = .ok j) : j.Fixes c l v := by
  refine ⟨?_, h.static⟩
  rcases addEdge_cases hadd with ⟨-, rfl⟩ | ⟨he, g, -, -, rfl⟩
  · exact h.bound
  · obtain ⟨w, hw, -⟩ := h.world?
    have hne : c ≠ .edge e := by
      rintro rfl
      rw [hfits.world?_new he] at hw
      cases hw
    rw [bound?_putWorld, if_neg hne]
    exact h.bound

/-- Resets pass static atoms by. -/
theorem Fixes.reset (h : i.Fixes c l v) : i.reset.Fixes c l v := by
  refine ⟨?_, h.static⟩
  obtain ⟨w, hw, hv, -⟩ := h.world?
  have hreset : v.reset = v := if_pos h.static
  rw [bound?_of_world? (by rw [world?_reset, hw]; rfl), World.get?_reset, hv, Option.map_some, hreset]

end Interpretation

/-! ## Effects -/

variable {config : Config} {pairing : Pairing} {c : Component} {l : Label} {v : Interval}

/-- An effect leaves a static atom as it is unless it thaws it. -/
theorem Work.perform_fixes (config : Config) (pairing : Pairing) {w : Work}
    (hfits : w.interpretation.Fits) (h : w.interpretation.Fixes c l v) (e : Effect) :
    (w.perform config pairing e).1.interpretation.Fixes c l v ∨
      Attempt.Thaws config pairing c l ⟨w, e⟩ := by
  rcases w.perform_cases config pairing e with
    ⟨edge, j, -, hadd, hi, -⟩ | ⟨a, world, rfl, hworld, hi, -⟩ | ⟨hi, -⟩
  · rw [hi]
    exact .inl (h.addEdge hfits hadd)
  · rw [hi]
    have hassert := Interpretation.assert_of_world? config pairing hworld
    by_cases ht : a.Thaws config pairing (w.interpretation.assertOn config pairing a world) c l
    · exact .inr ⟨a, _, rfl, hassert, ht⟩
    · exact .inl (h.assert hassert ht)
  · rw [hi]
    exact .inl h

/-- What an attempt that thaws a static atom makes of it. -/
theorem Attempt.Thaws.bound?_perform {x : Attempt} (h : x.Thaws config pairing c l)
    (hv : x.before.interpretation.Fixes c l v) :
    (x.before.perform config pairing x.effect).1.interpretation.bound? c l = some v.thawed := by
  obtain ⟨before, effect⟩ := x
  obtain ⟨a, response, rfl, hassert, ht⟩ := h
  obtain ⟨i, trace, progress⟩ := before
  have hafter := hv.assert_of_thaws hassert ht
  unfold Work.perform
  simp only [hassert]
  split <;> exact hafter

namespace Reasoner

/-- The attempt finds the atom static, with this value, and thaws it. -/
def Releases (config : Config) (pairing : Pairing) (c : Component) (l : Label) (v : Interval)
    (x : Attempt) : Prop :=
  x.before.interpretation.Fixes c l v ∧ x.Thaws config pairing c l

/-- The atom is static with this value, in work over a graph. -/
def FixesOver (g : Graph) (c : Component) (l : Label) (v : Interval) (w : Work) : Prop :=
  w.Over g ∧ w.interpretation.Fixes c l v

theorem keptUnless_fixes (r : Reasoner) (g : Graph) (c : Component) (l : Label) (v : Interval) :
    r.KeptUnless (Releases r.config r.pairing c l v) (FixesOver g c l v) where
  progress hw _ := ⟨⟨hw.1.fits, hw.1.grows⟩, hw.2⟩
  perform {w} hw e := by
    rcases Work.perform_fixes r.config r.pairing hw.1.fits hw.2 e with hkept | hthaws
    · exact .inl ⟨hw.1.perform e, hkept⟩
    · exact .inr ⟨hw.2, hthaws⟩

/-! ## Timesteps, runs and calls -/

variable {r : Reasoner}

theorem Sound.timestep_fixes (h : r.Sound) (hv : r.interpretation.Fixes c l v) (t : Nat) :
    (r.timestep t).1.interpretation.Fixes c l v ∨
      ∃ x ∈ r.attempts t, Releases r.config r.pairing c l v x := by
  have hstart : FixesOver r.interpretation.graph c l v (r.startWork t) := by
    refine ⟨h.startWork t, ?_⟩
    unfold Reasoner.startWork
    dsimp only
    split
    · exact hv.reset
    · exact hv
  rcases (r.keptUnless_fixes _ c l v).timestep hstart with ⟨w, hw, hi⟩ | hreleases
  · rw [hi]
    exact .inl hw.2
  · exact .inr hreleases

theorem Sound.runFrom_fixes (h : r.Sound) (hv : r.interpretation.Fixes c l v) (more : Nat) :
    (r.runFrom more r.nextTime).1.interpretation.Fixes c l v ∨
      ∃ x ∈ r.runAttempts more, Releases r.config r.pairing c l v x := by
  induction more generalizing r with
  | zero =>
    have hfirst := h.timestep_fixes hv r.nextTime
    rw [runAttempts_zero]
    rcases hstep : r.timestep r.nextTime with ⟨s, halt | progress⟩ <;> rw [hstep] at hfirst
    · rw [runFrom_of_error hstep]
      exact hfirst
    · rw [runFrom_zero hstep]
      exact hfirst
  | succ more ih =>
    have hfirst := h.timestep_fixes hv r.nextTime
    rw [runAttempts_succ]
    rcases hfirst with hfirst | ⟨x, hx, hreleases⟩
    · cases hnext : r.next? more with
      | none =>
        rcases runFrom_of_next?_eq_none hnext with
          ⟨s, halt, hstep, hrun⟩ | ⟨s, progress, hstep, -, hrun⟩ <;>
          rw [hstep] at hfirst <;> rw [hrun] <;> exact .inl hfirst
      | some s =>
        have hleads := leads_next? hnext
        have hsound : s.Sound := by
          obtain ⟨u, progress, hstep, rfl⟩ := next?_cases hnext
          exact (kept_sound (fun _ => True) fun _ => True).complete h hstep
        have hs : s.interpretation.Fixes c l v := by
          obtain ⟨u, progress, hstep, rfl⟩ := next?_cases hnext
          rw [hstep] at hfirst
          exact hfirst
        rw [runFrom_of_next? hnext]
        rcases ih hsound hs with hlast | ⟨x, hx, hreleases⟩
        · exact .inl hlast
        · rw [hleads.config, hleads.pairing] at hreleases
          exact .inr ⟨x, List.mem_append_right _ hx, hreleases⟩
    · exact .inr ⟨x, List.mem_append_left _ hx, hreleases⟩

/-- A call leaves a static atom as it is unless one of its attempts thaws it. -/
theorem Sound.call_fixes (h : r.Sound) (hv : r.interpretation.Fixes c l v) (call : Call) :
    (r.call call).1.interpretation.Fixes c l v ∨
      ∃ x ∈ r.callAttempts call, Releases r.config r.pairing c l v x := by
  cases hrun : r.runOf? call with
  | none =>
    obtain ⟨rules, facts, pairing, hframe⟩ := call_frame hrun
    rw [hframe]
    exact .inl hv
  | some run =>
    obtain ⟨s, more⟩ := run
    have hleads := leads_runOf? hrun
    have hs : s.interpretation.Fixes c l v := by
      rw [runOf?_frame hrun]
      exact hv
    rw [call_of_runOf? hrun, run_fst, callAttempts_of_runOf? hrun, ← hleads.config, ← hleads.pairing]
    exact (h.runOf? hrun).runFrom_fixes hs more

/-- Without resolved conflicts, no call changes a static atom. -/
theorem Sound.calls_fixes (h : r.Sound) (hpolicy : r.config.policy ≠ .resolve)
    (hv : r.interpretation.Fixes c l v) (cs : List Call) :
    (r.calls cs).1.interpretation.Fixes c l v := by
  induction cs generalizing r with
  | nil => exact hv
  | cons call cs ih =>
    rcases h.call_fixes hv call with hkept | ⟨x, -, -, a, response, -, -, hthaws⟩
    · exact ih (h.call call) (by rw [call_config]; exact hpolicy) hkept
    · exact absurd hthaws.policy hpolicy

/-- In every state that calls lead to, and in every state in the middle of a call, a static atom keeps
its bounds, its previous bounds and that it is static: in an assertion by a fact or a rule, in whatever
mode, when an edge is added, and at a reset. The exception is an assertion under the resolve policy that
reports a conflict on the same component, of another label to which that of the atom is opposite: the
atom is then `[0, 1]` and not static. So a call keeps the value, unless one of its attempts is such an
assertion and finds it; and under the other policies no calls ever change it. -/
theorem static_atoms_kept {rules : Rule → Prop} {facts : Fact → Prop} (h : r.Reachable rules facts) :
    (∀ i, r.Has i → ∀ c l v, i.Fixes c l v →
      (∀ config pairing a response, i.assert config pairing a = .ok response →
        (a.Thaws config pairing response c l →
          response.interpretation.bound? c l
            = some { v with lower := 0, upper := 1, isStatic := false }) ∧
        (¬ a.Thaws config pairing response c l → response.interpretation.bound? c l = some v)) ∧
      (∀ e j, i.addEdge e = .ok j → j.bound? c l = some v) ∧
      i.reset.bound? c l = some v) ∧
    ∀ c l v, r.interpretation.Fixes c l v →
      (∀ call, (r.call call).1.interpretation.bound? c l = some v ∨
        ∃ x ∈ r.callAttempts call, x.before.interpretation.bound? c l = some v ∧
          x.Thaws r.config r.pairing c l ∧
          (x.before.perform r.config r.pairing x.effect).1.interpretation.bound? c l
            = some { v with lower := 0, upper := 1, isStatic := false }) ∧
      (r.config.policy ≠ .resolve → ∀ cs, (r.calls cs).1.interpretation.bound? c l = some v) := by
  refine ⟨fun i hi c l v hv => ⟨fun config pairing a response hassert => ?_, fun e j hadd => ?_, ?_⟩,
    fun c l v hv => ⟨fun call => ?_, fun hpolicy cs => ?_⟩⟩
  · exact ⟨hv.assert_of_thaws hassert, fun ht => (hv.assert hassert ht).bound⟩
  · exact (hv.addEdge (hi.fits h.sound) hadd).bound
  · exact hv.reset.bound
  · rcases h.sound.call_fixes hv call with hkept | ⟨x, hx, hfound, hthaws⟩
    · exact .inl hkept.bound
    · exact .inr ⟨x, hx, hfound.bound, hthaws, hthaws.bound?_perform hfound⟩
  · exact (h.sound.calls_fixes hpolicy hv cs).bound

/-- A label that is static and the opposite of another one: a fact about the other label clashes, and the
call of this fact has an attempt that thaws the atom. -/
theorem static_atoms_kept_opposite :
    let yes : Fact := ⟨"yes", .node ⟨"A"⟩, ⟨"p"⟩, .certain, 0, 0, true, false⟩
    let no : Fact := ⟨"no", .node ⟨"A"⟩, ⟨"q"⟩, .certain, 0, 0, false, false⟩
    let v : Interval := ⟨1, 1, 0, 1, true⟩
    ∃ new, create (Graph.empty.addNode ⟨"A"⟩) {} .standard = .ok new ∧
      let r := (new.calls [.setPairing ⟨[(⟨"p"⟩, ⟨"q"⟩)]⟩, .addFact yes, .reason]).1
      let again : Call := .reasonAgain 1 [no]
      r.interpretation.bound? (.node ⟨"A"⟩) ⟨"p"⟩ = some v ∧
        (r.call again).1.interpretation.bound? (.node ⟨"A"⟩) ⟨"p"⟩ ≠ some v ∧
        ∃ x ∈ r.callAttempts again, x.before.interpretation.bound? (.node ⟨"A"⟩) ⟨"p"⟩ = some v ∧
          x.Thaws r.config r.pairing (.node ⟨"A"⟩) ⟨"p"⟩ := by
  intro yes no v
  refine ⟨_, rfl, ?_⟩
  intro r again
  have hr : r.Reachable (fun _ => True) fun _ => True :=
    (Reachable.create (show create (Graph.empty.addNode ⟨"A"⟩) {} .standard = .ok _ from rfl)).calls
      (by simp [Call.Brings])
  have hfacts : r.interpretation.bound? (.node ⟨"A"⟩) ⟨"p"⟩ = some v ∧
      (r.call again).1.interpretation.bound? (.node ⟨"A"⟩) ⟨"p"⟩ ≠ some v := by decide +kernel
  refine ⟨hfacts.1, hfacts.2, ?_⟩
  rcases ((static_atoms_kept hr).2 _ _ v ⟨hfacts.1, rfl⟩).1 again with hkept | ⟨x, hx, hfound, ht, -⟩
  · exact absurd hkept hfacts.2
  · exact ⟨x, hx, hfound, ht⟩

end Reasoner

end AnnotatedLogic
