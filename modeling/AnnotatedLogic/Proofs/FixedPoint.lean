import AnnotatedLogic.Proofs.Quiet
/-!
# The fixed point of a timestep

The loop of a timestep ends with a pass that reports no change. If this pass has added no edge and no
label either, then the interpretation is closed under the rules without delay: a further iteration
does nothing, whatever the rules are and in whatever order they come.

* `mem_stage_of_freezes`: where values become static, a stage has no new effects.
* `Stage.Rests`, `iterate_quiet`: after a quiet iteration, all of its stages are at rest.
* `timestep_closed`: a further iteration does nothing.
* `Reopens`: the report of no change alone is not enough. A label that is new and says nothing, or an
  edge that is new, is no change, but a rule may ask for it.
-/

namespace AnnotatedLogic

/-! ## Effects of another iteration -/

/-- The same effect, carried out by another iteration. -/
def Effect.renumber (iteration : Nat) : Effect → Effect
  | .link e => .link e
  | .assert a => .assert { a with iteration := iteration }

/-- Which iteration carries out an effect makes no difference to whether it is at rest. -/
theorem Effect.Rests.renumber {pairing : Pairing} {i : Interpretation} {e : Effect}
    (h : e.Rests pairing i) (iteration : Nat) : (e.renumber iteration).Rests pairing i := by
  cases e with
  | link e => exact h
  | assert a =>
    obtain ⟨w, hw, hrests⟩ := h
    exact ⟨w, hw, hrests.settled, hrests.frozen⟩

theorem Effect.Ruled.renumber {e : Effect} (h : e.Ruled) (iteration : Nat) :
    (e.renumber iteration).Ruled := by
  cases e <;> exact h

theorem Rule.effects_renumber (r : Rule) (t first second : Nat) (g : Grounding) :
    r.effects t second g = (r.effects t first g).map (Effect.renumber second) := by
  have hassertions (e : Edge) : (r.edgeAssertions g t second e).map Effect.assert
      = ((r.edgeAssertions g t first e).map Effect.assert).map (Effect.renumber second) := by
    unfold edgeAssertions
    dsimp only
    cases r.inference.bind (·.label) <;> rfl
  unfold effects
  split
  · rfl
  · rw [List.map_append, List.map_map, List.map_flatMap, List.map_flatMap, List.map_flatMap]
    simp only [hassertions]
    rfl

theorem Rule.effects_ruled {r : Rule} {t iteration : Nat} {g : Grounding} (hg : g.bound.Ordered)
    {e : Effect} (he : e ∈ r.effects t iteration g) : e.Ruled := by
  rcases r.mem_effects_cases he with ⟨edge, rfl⟩ | ⟨c, label, b, rfl, rfl | rfl⟩
  · trivial
  · exact ⟨rfl, rfl, hg⟩
  · exact ⟨rfl, rfl, Interval.given_ordered.certain⟩

/-! ## Stages of another iteration -/

/-- A stage has nothing left to do: what it asked for is at rest, and what it has read is as it was
except for values that have become static. -/
def Stage.Rests (pairing : Pairing) (stage : Stage) (j : Interpretation) : Prop :=
  ∃ i : Interpretation, i.Freezes j ∧ ∀ e ∈ stage i, e.Rests pairing j

theorem Stage.Rests.freezes {pairing : Pairing} {stage : Stage} {j k : Interpretation}
    (h : Stage.Rests pairing stage j) (hjk : j.Freezes k) : Stage.Rests pairing stage k := by
  obtain ⟨i, hij, hrests⟩ := h
  exact ⟨i, hij.trans hjk, fun e he => (hrests e he).freezes hjk⟩

/-- Where values become static, a rule has no new effects. -/
theorem Rule.mem_stage_of_freezes {r : Rule} {config : Config} {t first second : Nat}
    {i j : Interpretation} (h : i.Freezes j) {e : Effect} (he : e ∈ r.stage config t second j) :
    ∃ e' ∈ r.stage config t first i, e = e'.renumber second := by
  obtain ⟨g, hg, he⟩ := List.mem_flatMap.1 he
  rw [r.effects_renumber t first second] at he
  obtain ⟨e', he', rfl⟩ := List.mem_map.1 he
  exact ⟨e', List.mem_flatMap.2 ⟨g, r.mem_ground_of_freezes h hg, he'⟩, rfl⟩

namespace Reasoner

variable {r : Reasoner} {t : Nat}

/-- Where values become static, a stage has no new effects. -/
theorem mem_stage_of_freezes (first : Nat) {second : Nat} {stage : Stage}
    (hs : stage ∈ r.stages t second) :
    ∃ stage' ∈ r.stages t first, ∀ {i j : Interpretation}, i.Freezes j → ∀ e ∈ stage j,
      ∃ e' ∈ stage' i, e = e'.renumber second := by
  unfold stages at hs ⊢
  rcases List.mem_append.1 hs with hs | hs
  · obtain ⟨rule, hr, rfl⟩ := List.mem_map.1 hs
    exact ⟨_, List.mem_append_left _ (List.mem_map.2 ⟨rule, hr, rfl⟩),
      fun h e he => rule.mem_stage_of_freezes h he⟩
  · rw [List.mem_singleton.1 hs]
    refine ⟨_, List.mem_append_right _ (List.mem_singleton_self _), fun h e he => ?_⟩
    obtain ⟨rule, hr, he⟩ := List.mem_flatMap.1 he
    obtain ⟨e', he', heq⟩ := rule.mem_stage_of_freezes h he
    exact ⟨e', List.mem_flatMap.2 ⟨rule, hr, he'⟩, heq⟩

/-- What the rules of an iteration ask for is ruled. -/
theorem stage_ruled (hrules : ∀ rule ∈ r.rules, rule.Carries Interval.Ordered) {iteration : Nat}
    {stage : Stage} (hs : stage ∈ r.stages t iteration) {i : Interpretation} {e : Effect}
    (he : e ∈ stage i) : e.Ruled := by
  obtain ⟨rule, hr, g, hg, he⟩ := exists_rule_of_mem_stage hs he
  obtain ⟨findings, hbound⟩ := Rule.bound_of_mem_ground hg
  have hordered := Rule.headBound_carries Interval.given_ordered (hrules rule hr) findings
  exact rule.effects_ruled (hbound ▸ hordered) he

/-- After a quiet iteration, all of its stages are at rest. -/
theorem iterate_quiet (hrules : ∀ rule ∈ r.rules, rule.Carries Interval.Ordered) {iteration : Nat}
    {w v : Work} (h : r.iterate t iteration w = (v, none)) (hquiet : w.Quiet v) :
    ∀ stage ∈ r.stages t iteration, Stage.Rests r.pairing stage v.interpretation := by
  have hgrows (w : Work) (stage : Stage) :
      w.Grows (w.performStage r.config r.pairing stage).1 :=
    w.grows_performAll r.config r.pairing _
  refine (Work.foldUntil_quiet (R := Stage.Rests r.pairing) hgrows Stage.Rests.freezes ?_ h
    hquiet).2
  intro stage hs w v hstage hquiet
  obtain ⟨hkept, hrests⟩ :=
    Work.performAll_quiet (fun e he => stage_ruled hrules hs he) hstage hquiet
  exact ⟨hkept, w.interpretation, hkept, hrests⟩

/-! ## A further iteration -/

/-- Let the heads of the rules be bounds whose ends are in order, and let the last iteration of a
timestep report no change and add no edge and no label. Then the interpretation is closed under the
rules without delay: a further iteration does nothing. -/
theorem timestep_closed {s : Reasoner} {progress : Progress}
    (hrules : ∀ rule ∈ r.rules, rule.Carries Interval.Ordered)
    (hs : r.timestep t = (s, .ok progress)) {last : Pass}
    (hlast : (r.timestepPasses t).getLast? = some last)
    (hconverged : last.after.progress.converged .perfect = true)
    (hadds : last.before.interpretation.AddsNothing last.after.interpretation) (iteration : Nat) :
    s.iterate t iteration ⟨s.interpretation, s.trace, .nothing⟩
      = (⟨s.interpretation, s.trace, .nothing⟩, none) := by
  obtain ⟨last', hlast', hhalt, hi, -⟩ := timestep_last hs
  obtain rfl : last' = last := by
    rw [hlast'] at hlast
    exact Option.some.inj hlast
  obtain ⟨hbefore, hiterate⟩ := iterate_of_mem_timestepPasses (List.mem_of_getLast? hlast)
  have hquiet : last'.before.Quiet last'.after := by
    refine ⟨?_, hadds⟩
    rw [hbefore]
    exact of_decide_eq_true hconverged
  rw [hhalt] at hiterate
  have hrest := iterate_quiet hrules hiterate hquiet
  have hafter : s = (r.timestep t).1 := by rw [hs]
  have hstages : s.stages t iteration = r.stages t iteration := by
    rw [hafter, timestep_frame]
    rfl
  have hpairing : s.pairing = r.pairing := by rw [hafter, timestep_frame]
  unfold iterate
  rw [hstages, hpairing, hi]
  -- What a stage asks for now, it asked for in the last pass, when less was static.
  refine foldUntil_idle fun stage hstage => foldUntil_idle fun e he => ?_
  obtain ⟨stage', hstage', heffects⟩ := mem_stage_of_freezes last'.iteration hstage
  obtain ⟨i, hfreezes, hrests⟩ := hrest stage' hstage'
  obtain ⟨e', he', rfl⟩ := heffects hfreezes e he
  have hruled := stage_ruled hrules hstage' he'
  exact Work.perform_rests (hruled.renumber _) ((hrests e' he').renumber _) rfl

/-- A first iteration makes a label certain, and the second one reports no change. A third one does
nothing. -/
theorem timestep_closed_certain :
    let rule : Rule :=
      { Rule.simple .node "r" ⟨"q"⟩ with
        delay := 0
        criteria := [(⟨"p"⟩, .certain)] }
    let fact : Fact := ⟨"f", .node ⟨"a"⟩, ⟨"p"⟩, .certain, 0, 0, false, false⟩
    ∃ r s : Reasoner, create (Graph.empty.addNode ⟨"a"⟩) {} .standard = .ok r ∧
      ((r.calls [.addRule rule, .addFact fact]).1.timestep 0).1 = s ∧
      s.iterate 0 3 ⟨s.interpretation, s.trace, .nothing⟩
        = (⟨s.interpretation, s.trace, .nothing⟩, none) := by
  intro rule fact
  refine ⟨_, _, rfl, rfl, ?_⟩
  generalize hr : (calls _ [.addRule rule, .addFact fact]).1 = r
  have hrules : ∀ rule ∈ r.rules, rule.Carries Interval.Ordered := by
    intro rule hrule b hb
    rw [← hr] at hrule
    rw [List.mem_singleton.1 hrule] at hb
    cases hb
    exact Interval.given_ordered.certain
  have hcompleted : (r.timestep 0).2.isOk = true := by
    rw [← hr]
    decide +kernel
  have hpasses : (r.timestepPasses 0).getLast?.map (fun last =>
      (last.after.progress.converged .perfect, last.before.interpretation))
        = some (true, (r.timestep 0).1.interpretation) := by
    rw [← hr]
    decide +kernel
  rcases hs : r.timestep 0 with ⟨s, _ | progress⟩
  · rw [hs] at hcompleted
    cases hcompleted
  · obtain ⟨last, hlast, -, hi, -⟩ := timestep_last hs
    rw [hlast, hs] at hpasses
    obtain ⟨hconverged, hbefore⟩ := Prod.mk.inj (Option.some.inj hpasses)
    have hadds : last.before.interpretation.AddsNothing last.after.interpretation := by
      rw [hbefore, ← hi]
      exact ⟨rfl, fun _ _ h => h⟩
    exact timestep_closed hrules hs hlast hconverged hadds 3

/-- A reasoner asks for perfect convergence and the last iteration of a timestep reports no change,
but a further one changes the interpretation. -/
def Reopens (r : Reasoner) (t : Nat) : Prop :=
  r.config.convergence = .perfect ∧ (r.timestep t).2.isOk = true ∧
    (r.timestepPasses t).getLast?.map (·.after.progress.converged .perfect) = some true ∧
    ((r.timestep t).1.iterate t ((r.timestepPasses t).length + 1)
        ⟨(r.timestep t).1.interpretation, (r.timestep t).1.trace, .nothing⟩).1.interpretation
      ≠ (r.timestep t).1.interpretation

instance (r : Reasoner) (t : Nat) : Decidable (r.Reopens t) :=
  inferInstanceAs (Decidable (_ ∧ _ ∧ _ ∧ _))

/-- The report of no change is not enough. A label that is new and says nothing is no change, and an
edge that is new is none, but a rule may ask for the one or the other. -/
theorem reopens_label_edge :
    let insert : Rule :=
      { Rule.simple .node "insert" ⟨"q"⟩ with
        delay := 0
        head := .bound .unknown }
    let use : Rule :=
      { Rule.simple .node "use" ⟨"s"⟩ with
        delay := 0
        criteria := [(⟨"q"⟩, .unknown)] }
    let link : Rule :=
      { Rule.simple .node "link" ⟨"q"⟩ with
        delay := 0
        clauses := [⟨.node, ⟨"p"⟩, .unknown, .atLeast 1⟩]
        head := .bound .unknown
        inference := some ⟨.clause 0, .target, none⟩ }
    let reach : Rule :=
      { Rule.simple .node "reach" ⟨"s"⟩ with
        delay := 0
        criteria := [(⟨"m"⟩, .unknown)]
        clauses := [⟨.node, ⟨"p"⟩, .unknown, .atLeast 1⟩] }
    let labelling : Labelling :=
      { node := [⟨"p"⟩], edge := [⟨"q"⟩], specificNode := [(⟨"m"⟩, [⟨"b"⟩])] }
    ∃ r s : Reasoner, create (Graph.empty.addNode ⟨"a"⟩) {} .standard = .ok r ∧
      create (Graph.build [] [⟨⟨"a"⟩, ⟨"b"⟩⟩] true false) labelling .standard = .ok s ∧
      (r.calls [.addRule insert, .addRule use]).1.Reopens 0 ∧
      (s.calls [.addRule link, .addRule reach]).1.Reopens 0 := by
  intro insert use link reach labelling
  refine ⟨_, _, rfl, rfl, ?_, ?_⟩
  · decide +kernel
  · decide +kernel

end Reasoner

end AnnotatedLogic
