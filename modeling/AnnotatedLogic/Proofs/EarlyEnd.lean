import AnnotatedLogic.Proofs.Frozen
/-!
# What an early end skips

A run ends early when no firing and no fact is still to come up to its horizon. A static fact that has
started does not count as one: once it has made its atom static, asserting it again does nothing. But
it is asserted only where its component is there, and it lets go of its atom when a conflict is
resolved on it, so an early end may skip more than repetitions.

* `Fact.static_of_active`: a fact that is not pending and yet active later is static and has started.
* `Work.perform_of_frozen`: asserting a fact of a static atom does nothing.
* `frozen_or_skipped`: when a static fact that has started has made its atom static, and when not.
* `call_early`: what an early end skips.
* `static_fact_skipped`: a static fact that an early end skips although it is not in force.
-/

namespace AnnotatedLogic

/-- A fact that is not pending and yet active later is static and has started. -/
theorem Fact.static_of_active {f : Fact} {t u horizon : Nat} (hpending : f.isPending t horizon = false)
    (htu : t < u) (hu : u ≤ horizon) (hactive : f.isActive u = true) :
    f.isStatic = true ∧ f.tLower ≤ t := by
  unfold isActive at hactive
  rw [Bool.and_eq_true, decide_eq_true_eq, Bool.or_eq_true, decide_eq_true_eq] at hactive
  obtain ⟨hlower, hupper⟩ := hactive
  unfold isPending at hpending
  dsimp only at hpending
  rw [Bool.and_eq_false_iff, Bool.or_eq_false_iff, decide_eq_false_iff_not,
    decide_eq_false_iff_not] at hpending
  rcases hpending with hfirst | ⟨hstarted, hlast⟩
  · omega
  · refine ⟨?_, by omega⟩
    cases hstatic : f.isStatic with
    | true => rfl
    | false =>
      rw [hstatic] at hupper
      unfold lastTime? at hlast
      simp only [hstatic, Bool.false_eq_true, if_false, decide_eq_false_iff_not] at hlast
      have hlt : u ≤ f.tUpper := by simpa using hupper
      omega

/-- Asserting a fact of a static atom does nothing. -/
theorem Work.perform_of_frozen {config : Config} {pairing : Pairing} {w : Work} {f : Fact}
    (h : w.interpretation.Frozen f.target f.label) (t : Nat) :
    (w.perform config pairing (f.effect config t)).1.interpretation = w.interpretation ∧
      (w.perform config pairing (f.effect config t)).1.trace = w.trace ∧
      (w.perform config pairing (f.effect config t)).2 = none := by
  obtain ⟨i, trace, progress⟩ := w
  obtain ⟨v, hv, hs⟩ := h
  have hidle (a : Assertion) (hc : a.component = f.target) (hl : a.label = f.label) :
      i.assert config pairing a = .ok ⟨i, .nothing, []⟩ := by
    unfold Interpretation.assert
    rw [hc, show i.world? f.target = some v from hv]
    exact congrArg Except.ok (Interpretation.assertOn_static (hl ▸ hs))
  unfold Fact.effect perform
  dsimp only
  rw [hidle _ rfl rfl]
  exact ⟨rfl, by simp [Outcome.refusal?, Outcome.nothing], rfl⟩

namespace Reasoner

theorem not_pending_of_mem {r : Reasoner} {t horizon : Nat} (h : r.hasPending t horizon = false) :
    (∀ f ∈ r.facts, f.isPending t horizon = false) ∧
      ∀ f ∈ r.pending, ¬ (t < f.due ∧ f.due ≤ horizon) := by
  unfold hasPending at h
  rw [Bool.or_eq_false_iff, List.any_eq_false, List.any_eq_false] at h
  exact ⟨fun f hf => Bool.eq_false_iff.2 (h.1 f hf), fun f hf hdue => h.2 f hf (decide_eq_true hdue)⟩

theorem frozen_startWork {r : Reasoner} {c : Component} {l : Label} (h : r.interpretation.Frozen c l)
    (t : Nat) : (r.startWork t).interpretation.Frozen c l := by
  unfold startWork
  dsimp only
  split
  · exact h.reset
  · exact h

/-- After a timestep, the atom of a static fact that has started is static, unless its component is an
edge that was not there yet when the timestep began, or a conflict on the atom was resolved. -/
theorem frozen_or_skipped {r s : Reasoner} (h : r.Sound) {t : Nat} {progress : Progress}
    (hstep : r.timestep t = (s, .ok progress)) {f : Fact} (hf : f ∈ r.facts)
    (hstatic : f.isStatic = true) (hstarted : f.tLower ≤ t)
    (htarget : f.target ∈ s.interpretation.graph.components) :
    s.interpretation.Frozen f.target f.label ∨
      (∃ e, f.target = .edge e ∧ e ∉ r.interpretation.graph.edges) ∨
      r.Unfreezes f.target f.label (r.attempts t) := by
  by_cases hthere : f.target ∈ r.interpretation.graph.components
  · have hactive : f.isActive t = true := by
      unfold Fact.isActive
      simp [hstatic, hstarted]
    rcases frozen_of_fact h hf hactive hstatic hthere hstep with hfrozen | hunfreezes
    · exact .inl hfrozen
    · exact .inr (.inr hunfreezes)
  · have hgrows := r.grows_graph_timestep t
    rw [hstep] at hgrows
    refine .inr (.inl ?_)
    cases hcomponent : f.target with
    | node n =>
      rw [hcomponent] at hthere htarget
      have hn : n ∈ s.interpretation.graph.nodes := Graph.node_mem_components.1 htarget
      rw [hgrows.nodes] at hn
      exact absurd (Graph.node_mem_components.2 hn) hthere
    | edge e =>
      rw [hcomponent, Graph.edge_mem_components] at hthere
      exact ⟨e, rfl, hthere⟩

/-- A call that ends early has completed its last timestep, and no firing is still to come up to its
horizon. A fact that is still active up to the horizon, and whose component is there, is static and
has started. Asserted again, it would do nothing, as its atom is static; unless its component is an
edge that was not there yet when the last timestep began, or the resolve policy has dealt with a
conflict on the atom in this timestep. -/
theorem call_early {rules : Rule → Prop} {facts : Fact → Prop} {r u : Reasoner}
    (hr : r.Reachable rules facts) {c : Call} {report : Report}
    (hcall : r.call c = (u, .ok (some report))) (hearly : report.convergedEarly = true) :
    ∃ s more earlier last, r.runOf? c = some (s, more) ∧ r.callStarts c = earlier ++ [last] ∧
      u.nextTime = last.nextTime + 1 ∧
      (∀ f ∈ u.pending, ¬ (last.nextTime < f.due ∧ f.due ≤ s.nextTime + more)) ∧
      ∀ f ∈ u.facts, ∀ t, last.nextTime < t → t ≤ s.nextTime + more → f.isActive t = true →
        f.target ∈ u.interpretation.graph.components →
        f.isStatic = true ∧ f.tLower ≤ last.nextTime ∧
          (u.interpretation.Frozen f.target f.label ∧
              ((u.startWork t).perform u.config u.pairing (f.effect u.config t)).1.interpretation
                = (u.startWork t).interpretation ∨
            (∃ e, f.target = .edge e ∧ e ∉ last.interpretation.graph.edges) ∨
            last.Unfreezes f.target f.label (last.attempts last.nextTime)) := by
  cases hrun : r.runOf? c with
  | none =>
    rw [(call_of_runOf?_eq_none hrun (congrArg Prod.snd hcall)).1] at hearly
    cases hearly
  | some run =>
    obtain ⟨s, more⟩ := run
    have hs : s.Sound := hr.sound.runOf? hrun
    rw [call_of_runOf? hrun] at hcall
    unfold Reasoner.run at hcall
    have hends := s.runFrom_ends more
    generalize s.runFrom more s.nextTime = result at hcall hends
    cases hends with
    | @stopped _ _ _ halt =>
      cases halt <;> cases hcall
      cases hearly
    | horizon =>
      cases hcall
      cases hearly
    | @early earlier last v progress hstarts hstep hpending =>
      cases hcall
      obtain ⟨hfacts, hfirings⟩ := not_pending_of_mem hpending
      refine ⟨s, more, earlier, last, rfl, (callStarts_of_runOf? hrun).trans hstarts, rfl, hfirings,
        fun f hf t ht hhorizon hactive htarget => ?_⟩
      obtain ⟨hstatic, hstarted⟩ := Fact.static_of_active (hfacts f hf) ht hhorizon hactive
      refine ⟨hstatic, hstarted, ?_⟩
      have hlast : last.Sound := by
        refine (kept_sound (fun _ => True) fun _ => True).runStarts hs more last ?_
        rw [hstarts]
        simp
      have hmem : f ∈ last.facts := by
        rw [← (sameSetup_timestep hstep).facts]
        exact hf
      rcases frozen_or_skipped hlast hstep hmem hstatic hstarted htarget with hfrozen | hskipped
      · exact .inl ⟨hfrozen, (Work.perform_of_frozen (frozen_startWork hfrozen t) t).1⟩
      · exact .inr hskipped

/-- A static fact of a node, which runs into no conflict: the run ends early, and the atom is static. -/
theorem call_early_static_fact :
    let fact : Fact := ⟨"yes", .node ⟨"A"⟩, ⟨"p"⟩, .certain, 0, 0, true, false⟩
    ∃ new, create (Graph.empty.addNode ⟨"A"⟩) {} .standard = .ok new ∧
      let r := (new.calls [.addFact fact]).1
      ∃ report, (r.call .reason).2 = .ok (some report) ∧ report.convergedEarly = true ∧
        (r.call .reason).1.nextTime = 1 ∧
        (r.call .reason).1.interpretation.Frozen (.node ⟨"A"⟩) ⟨"p"⟩ := by
  intro fact
  refine ⟨_, rfl, ?_⟩
  intro r
  have hr : r.Reachable (fun _ => True) fun _ => True :=
    (Reachable.create (show create (Graph.empty.addNode ⟨"A"⟩) {} .standard = .ok _ from rfl)).calls
      (by simp [Call.Brings])
  have hanswer : (r.call .reason).2.toOption.join.map (·.convergedEarly) = some true := by
    decide +kernel
  have hfinal : (r.call .reason).1.nextTime = 1 ∧ fact ∈ (r.call .reason).1.facts ∧
      .node ⟨"A"⟩ ∈ (r.call .reason).1.interpretation.graph.components ∧
      1 ≤ r.nextTime + r.config.timesteps := by decide +kernel
  have hfree : ∀ a ∈ r.callAttempts .reason, a.conflict? r.pairing = none := by decide +kernel
  clear_value r
  rcases hreport : (r.call .reason).2 with error | _ | report <;> rw [hreport] at hanswer
  · cases hanswer
  · cases hanswer
  · have hearly : report.convergedEarly = true := Option.some.inj hanswer
    obtain ⟨s, more, earlier, last, hrun, hstarts, hnext, -, hskipped⟩ :=
      call_early hr (Prod.ext rfl hreport) hearly
    cases hrun
    have hlater : last.nextTime < 1 := Nat.lt_of_succ_le (hnext.symm.trans hfinal.1).le
    refine ⟨report, rfl, hearly, hfinal.1, ?_⟩
    rcases (hskipped fact hfinal.2.1 1 hlater hfinal.2.2.2 rfl hfinal.2.2.1).2.2 with
      ⟨hfrozen, -⟩ | ⟨e, hedge, -⟩ | ⟨a, ha, -, conflict, hconflict, -⟩
    · exact hfrozen
    · cases hedge
    · have hmem : a ∈ r.callAttempts .reason := by
        unfold callAttempts
        rw [hstarts]
        exact List.mem_flatMap.2 ⟨last, by simp, ha⟩
      have hlast : last.pairing = r.pairing := by
        have hstart : last ∈ r.runStarts r.config.timesteps := by
          rw [← show r.callStarts .reason = r.runStarts r.config.timesteps from rfl, hstarts]
          simp
        exact (sameSetup_of_mem_runStarts hstart).pairing
      rw [hlast, hfree a hmem] at hconflict
      cases hconflict

/-- Two facts contradict each other at time `0`, and the resolve policy makes their atom unknown. The run
ends early there, although one of the facts is static and would make its atom certain at time `1`,
which is within the horizon. -/
theorem static_fact_skipped :
    let no : Fact := ⟨"no", .node ⟨"A"⟩, ⟨"p"⟩, .impossible, 0, 0, false, false⟩
    let yes : Fact := ⟨"yes", .node ⟨"A"⟩, ⟨"p"⟩, .certain, 0, 0, true, false⟩
    ∃ new, create (Graph.empty.addNode ⟨"A"⟩) {} { Config.standard with timesteps := 1 } = .ok new ∧
      let r := (new.calls [.addFact no, .addFact yes]).1
      let u := (r.call .reason).1
      let next := (u.startWork 1).perform u.config u.pairing (yes.effect u.config 1)
      (r.call .reason).2.toOption.join.map (·.convergedEarly) = some true ∧
        u.nextTime = 1 ∧ yes ∈ u.facts ∧ yes.isActive 1 = true ∧
        yes.target ∈ u.interpretation.graph.components ∧
        (u.interpretation.bound? yes.target yes.label).map (·.isStatic) = some false ∧
        u.interpretation.satisfies yes.target yes.label .certain = false ∧
        next.1.interpretation.satisfies yes.target yes.label .certain = true := by
  intro no yes
  refine ⟨_, rfl, ?_⟩
  decide +kernel

end Reasoner

end AnnotatedLogic
