import AnnotatedLogic.Proofs.FixedPoint
import AnnotatedLogic.Proofs.Narrowing
import AnnotatedLogic.Proofs.Underway
/-!
# Rules in any order

Rules whose thresholds ask for many members, and whose heads are fixed bounds, only ever narrow. Where the
loop of a timestep ends without a conflict, it ends with the lowest interpretation above its start that
obeys the rules, and this does not depend on the order of the rules or on which of them are immediate.

* `Rule.Monotone`, `Reasoner.Monotone`: the rules, and reasoners that have no other ones.
* `Interpretation.Obeys`: what a rule asserts holds wherever the rule applies.
* `Monotone.below_fixpoint`: a loop without conflicts leads up.
* `Monotone.fixpoint_below`: a loop that starts below an interpretation that obeys the rules stays below
  it, and it runs into no conflict.
* `Monotone.obeys_fixpoint`: where the loop ends, the rules are obeyed.
* `loop_order_irrelevant`: so two such loops end with the same bounds.
-/

namespace AnnotatedLogic

open AnnotatedLogic.Interval

/-! ## Monotone rules -/

/-- The rule asserts a fixed bound at once, other than the one that says nothing, and asks for at least or
for more than so many members. It adds no edges and makes nothing static. -/
structure Rule.Monotone (r : Rule) : Prop where
  delay : r.delay = 0
  inference : r.inference = none
  isStatic : r.isStatic = false
  head : ∃ b, r.head = .bound b ∧ b.IsProper ∧ b.isUnknown = false
  thresholds : ∀ c ∈ r.clauses, c.threshold.Monotone

/-- The same rule, applied together with the others. -/
def Rule.common (r : Rule) : Rule := { r with immediate := false }

/-- What the rule asserts holds wherever it applies. -/
def Interpretation.Obeys (i : Interpretation) (r : Rule) : Prop :=
  ∀ b, r.head = .bound b → ∀ c, r.AppliesAt i c → i.satisfies c r.target b = true

/-- When a rule is applied makes no difference to what it asks for. -/
theorem Interpretation.obeys_common {i : Interpretation} {r : Rule} :
    i.Obeys r.common ↔ i.Obeys r :=
  ⟨fun h b hb c hc => h b hb c ⟨hc.candidate, hc.admitted, hc.met⟩,
    fun h b hb c hc => h b hb c ⟨hc.candidate, hc.admitted, hc.met⟩⟩

/-- Every world belongs to a component, and every value is a truth value. -/
structure Interpretation.Regular (i : Interpretation) : Prop where
  fits : i.Fits
  proper : i.All IsProper

/-- The effect narrows an atom to something that is not unknown. -/
def Effect.Narrows : Effect → Prop
  | .link _ => False
  | .assert a => a.Narrows ∧ a.bound.isUnknown = false

/-- What the effect asserts holds in an interpretation. -/
def Effect.HoldsIn (i : Interpretation) : Effect → Prop
  | .link _ => True
  | .assert a => i.satisfies a.component a.label a.bound = true

theorem Effect.Narrows.carries {e : Effect} (h : e.Narrows) : e.Carries IsProper := by
  cases e with
  | link e => trivial
  | assert a => exact h.1.bound

namespace Rule

variable {r : Rule} {i : Interpretation} {config : Config} {t iteration : Nat} {g : Grounding}

theorem Monotone.of_head (hr : r.Monotone) {b : Interval} (hb : r.head = .bound b) :
    b.IsProper ∧ b.isUnknown = false := by
  obtain ⟨b', hb', hbound⟩ := hr.head
  obtain rfl : b = b' := Head.bound.inj (hb.symm.trans hb')
  exact hbound

theorem Monotone.carries (hr : r.Monotone) : r.Carries IsProper := fun _ hb => (hr.of_head hb).1

/-- A grounding asserts the bound of the head at its component. -/
theorem Monotone.effects_eq (hr : r.Monotone) {b : Interval} (hb : r.head = .bound b)
    (hg : g ∈ r.ground i config) (t iteration : Nat) :
    r.effects t iteration g = [.assert (r.assertion g t iteration g.component r.target b)] := by
  obtain ⟨-, hedges⟩ := appliesAt_of_mem_ground hr.inference hg
  obtain ⟨findings, hbound⟩ := bound_of_mem_ground hg
  have hhead : g.bound = b := by
    rw [hbound]
    unfold headBound
    rw [hb]
  unfold effects
  rw [hedges, hhead]

theorem Monotone.narrows (hr : r.Monotone) (hg : g ∈ r.ground i config) {e : Effect}
    (he : e ∈ r.effects t iteration g) : e.Narrows := by
  obtain ⟨b, hb, hproper, hunknown⟩ := hr.head
  rw [hr.effects_eq hb hg] at he
  rw [List.mem_singleton.1 he]
  exact ⟨⟨rfl, hr.isStatic, hproper⟩, hunknown⟩

/-- A rule that adds no edges does not apply where its label is static. -/
theorem AppliesAt.exists_world (hr : r.inference = none) {c : Component} (h : r.AppliesAt i c) :
    ∃ w, i.world? c = some w ∧ w.isStatic r.target = false := by
  obtain ⟨w, hw, hadmits⟩ := h.admitted
  have hinfers : r.infersAt c = false := by
    unfold infersAt
    rw [hr]
    cases c <;> rfl
  unfold admits at hadmits
  rw [hinfers, Bool.false_or, Bool.and_eq_true, Bool.not_eq_true'] at hadmits
  exact ⟨w, hw, hadmits.2⟩

end Rule

/-! ## Effects that narrow -/

namespace Work

variable {config : Config} {pairing : Pairing} {w v : Work} {e : Effect}

theorem perform_regular (he : e.Carries IsProper) (hw : w.interpretation.Regular) :
    (w.perform config pairing e).1.interpretation.Regular := by
  obtain ⟨hfits, hproper⟩ := w.perform_carries closed_isProper config pairing he hw.fits hw.proper
  exact ⟨hfits, hproper⟩

/-- No change is taken back, and where none is reported there is none. -/
structure Accounts (w v : Work) : Prop where
  changedAtoms : w.progress.changedAtoms ≤ v.progress.changedAtoms
  silent : v.progress.changedAtoms = w.progress.changedAtoms → v.interpretation = w.interpretation

theorem Accounts.refl (w : Work) : w.Accounts w := ⟨Nat.le_refl _, fun _ => rfl⟩

theorem Accounts.trans {u : Work} (hwv : w.Accounts v) (hvu : v.Accounts u) : w.Accounts u := by
  have hle := hwv.changedAtoms
  have hle' := hvu.changedAtoms
  refine ⟨hle.trans hle', fun hsame => ?_⟩
  exact (hvu.silent (by omega)).trans (hwv.silent (by omega))

theorem accounts_perform (he : e.Narrows) (hp : ∀ label, pairing.partners label = [])
    (hw : w.interpretation.Regular) : w.Accounts (w.perform config pairing e).1 := by
  refine ⟨(w.grows_perform config pairing e).changedAtoms, fun hsame => ?_⟩
  cases e with
  | link e => exact he.elim
  | assert a => exact perform_silent he.1 he.2 (hp a.label) hw.proper hsame

end Work

namespace Reasoner

/-! ## Reasoners with monotone rules -/

/-- The reasoner asks for perfect convergence, pairs no labels, and all of its rules are monotone. -/
structure Monotone (r : Reasoner) : Prop where
  convergence : r.config.convergence = .perfect
  pairing : r.pairing = {}
  rules : ∀ rule ∈ r.rules, rule.Monotone

/-- The loop has not used up its iterations: it stopped, or its last pass met the criterion. -/
def LoopEnds (r : Reasoner) (t more iteration : Nat) (w : Work) : Prop :=
  (r.passes t more iteration w).getLast?.any r.goesOn = false

instance (r : Reasoner) (t more iteration : Nat) (w : Work) :
    Decidable (r.LoopEnds t more iteration w) :=
  inferInstanceAs (Decidable (_ = false))

/-- No attempt of the loop runs into a conflict. -/
def LoopAgrees (r : Reasoner) (t more iteration : Nat) (w : Work) : Prop :=
  ∀ a ∈ r.loopAttempts t more iteration w, a.conflict? r.pairing = none

instance (r : Reasoner) (t more iteration : Nat) (w : Work) :
    Decidable (r.LoopAgrees t more iteration w) :=
  inferInstanceAs (Decidable (∀ a ∈ r.loopAttempts t more iteration w, a.conflict? r.pairing = none))

/-- Two reasoners have the same rules, except for their order and for which are immediate. -/
def SameRules (r s : Reasoner) : Prop := (r.rules.map Rule.common).Perm (s.rules.map Rule.common)

instance (r s : Reasoner) : Decidable (r.SameRules s) := inferInstanceAs (Decidable (List.Perm _ _))

theorem SameRules.symm {r s : Reasoner} (h : r.SameRules s) : s.SameRules r := List.Perm.symm h

/-- What obeys the rules of one of them obeys those of the other one. -/
theorem SameRules.obeys {r s : Reasoner} (h : r.SameRules s) {i : Interpretation}
    (hr : ∀ rule ∈ r.rules, i.Obeys rule) : ∀ rule ∈ s.rules, i.Obeys rule := by
  intro rule hrule
  have hmem := h.symm.subset (List.mem_map_of_mem hrule)
  obtain ⟨rule', hrule', hsame⟩ := List.mem_map.1 hmem
  rw [← Interpretation.obeys_common, ← hsame, Interpretation.obeys_common]
  exact hr rule' hrule'

namespace Monotone

variable {r : Reasoner} {t iteration more : Nat} {i f : Interpretation} {w : Work} {stage : Stage}

theorem partners (h : r.Monotone) (label : Label) : r.pairing.partners label = [] := by
  rw [h.pairing]
  rfl

theorem narrows_of_mem_stage (h : r.Monotone) (hs : stage ∈ r.stages t iteration) {e : Effect}
    (he : e ∈ stage i) : e.Narrows := by
  obtain ⟨rule, hrule, g, hg, he⟩ := exists_rule_of_mem_stage hs he
  exact (h.rules rule hrule).narrows hg he

theorem exists_stage (h : r.Monotone) {rule : Rule} (hrule : rule ∈ r.rules) (t iteration : Nat) :
    ∃ stage ∈ r.stages t iteration, ∀ i, ∀ e ∈ rule.stage r.config t iteration i, e ∈ stage i := by
  unfold stages
  cases him : rule.immediate with
  | true =>
    refine ⟨_, List.mem_append_left _ (List.mem_map.2 ⟨rule, ?_, rfl⟩), fun i e he => he⟩
    exact List.mem_filter.2 ⟨hrule, him⟩
  | false =>
    have hinstant : rule.isInstant = true := by
      unfold Rule.isInstant
      rw [him, (h.rules rule hrule).delay]
      rfl
    refine ⟨_, List.mem_append_right _ (List.mem_singleton_self _), fun i e he => ?_⟩
    exact List.mem_flatMap.2 ⟨rule, List.mem_filter.2 ⟨hrule, hinstant⟩, he⟩

theorem keptByEffects_regular (r : Reasoner) :
    r.KeptByEffects Effect.Narrows (fun w => w.interpretation.Regular) where
  progress hw _ := hw
  perform hw he := Work.perform_regular he.carries hw

theorem asks_narrows (h : r.Monotone) (t : Nat) :
    Asks r t Effect.Narrows fun w => w.interpretation.Regular :=
  fun hs _ _ he => h.narrows_of_mem_stage hs he

/-! ### The loop leads up -/

/-- A loop without conflicts leads up. -/
theorem below_fixpoint (h : r.Monotone) (hw : w.interpretation.Regular)
    (hagrees : r.LoopAgrees t more iteration w) :
    w.interpretation.Below (r.fixpoint t more iteration w).1.interpretation := by
  have hkept : r.KeptUnless (fun a => ¬ a.effect.Narrows ∨ a.conflict? r.pairing ≠ none)
      fun v => v.interpretation.Regular ∧ w.interpretation.Below v.interpretation :=
    { progress := fun hv _ => hv
      perform := fun {v} hv e => by
        by_cases he : e.Narrows
        · by_cases hc : v.interpretation.conflict? r.pairing e = none
          · cases e with
            | link e => exact he.elim
            | assert a =>
              exact .inl ⟨Work.perform_regular he.carries hv.1,
                hv.2.trans (Work.below_perform he.1 (h.partners a.label) hv.1.proper hc)⟩
          · exact .inr (.inr hc)
        · exact .inr (.inl he) }
  rcases hkept.fixpoint (t := t) ⟨hw, Interpretation.below_refl hw.proper⟩ more iteration with
    ⟨-, hbelow⟩ | ⟨a, ha, hbad⟩
  · exact hbelow
  · obtain ⟨-, hnarrows⟩ :=
      (keptByEffects_regular r).loopAttempts (h.asks_narrows t) more hw iteration a ha
    rcases hbad with hbad | hbad
    · exact absurd hnarrows hbad
    · exact absurd (hagrees a ha) hbad

/-! ### The loop leads no further than the rules -/

/-- What the rules ask for holds in a higher interpretation that obeys them. -/
theorem holdsIn_of_mem_stage (h : r.Monotone) (hf : ∀ rule ∈ r.rules, f.Obeys rule)
    (hbelow : i.Below f) (hlarge : i.graph.edges.length < 2 ^ 64)
    (hs : stage ∈ r.stages t iteration) {e : Effect} (he : e ∈ stage i) : e.HoldsIn f := by
  obtain ⟨rule, hrule, g, hg, he⟩ := exists_rule_of_mem_stage hs he
  have hmonotone := h.rules rule hrule
  obtain ⟨b, hb, -⟩ := hmonotone.head
  obtain ⟨happlies, -⟩ := Rule.appliesAt_of_mem_ground hmonotone.inference hg
  rw [hmonotone.effects_eq hb hg] at he
  rw [List.mem_singleton.1 he]
  exact hf rule hrule b hb g.component (happlies.below hmonotone.thresholds hbelow hlarge)

/-- A loop that starts below an interpretation that obeys the rules runs into no conflict and stays below
it. -/
theorem fixpoint_below (h : r.Monotone) (hf : ∀ rule ∈ r.rules, f.Obeys rule)
    (hproper : f.All IsProper) (hlarge : f.graph.edges.length < 2 ^ 64)
    (hw : w.interpretation.Regular) (hbelow : w.interpretation.Below f) (t more iteration : Nat) :
    r.LoopAgrees t more iteration w ∧
      (r.fixpoint t more iteration w).1.interpretation.Below f := by
  have hperform {v : Work} {e : Effect}
      (hv : v.interpretation.Regular ∧ v.interpretation.Below f) (he : e.Narrows ∧ e.HoldsIn f) :
      v.interpretation.conflict? r.pairing e = none ∧
        (v.perform r.config r.pairing e).1.interpretation.Below f := by
    cases e with
    | link e => exact he.1.elim
    | assert a =>
      exact Work.perform_below he.1.1 (h.partners a.label) hv.1.proper hproper hv.2 he.2
  have hkept : r.KeptByEffects (fun e => e.Narrows ∧ e.HoldsIn f)
      fun v => v.interpretation.Regular ∧ v.interpretation.Below f :=
    { progress := fun hv _ => hv
      perform := fun hv he => ⟨Work.perform_regular he.1.carries hv.1, (hperform hv he).2⟩ }
  have hasks : Asks r t (fun e => e.Narrows ∧ e.HoldsIn f)
      fun v => v.interpretation.Regular ∧ v.interpretation.Below f :=
    fun hs hv e he => ⟨h.narrows_of_mem_stage hs he,
      h.holdsIn_of_mem_stage hf hv.2 (hv.2.graph ▸ hlarge) hs he⟩
  refine ⟨fun a ha => ?_, (hkept.fixpoint hasks more ⟨hw, hbelow⟩ iteration).2⟩
  obtain ⟨hbefore, heffect⟩ := hkept.loopAttempts hasks more ⟨hw, hbelow⟩ iteration a ha
  exact (hperform hbefore heffect).1

/-! ### The loop ends where the rules are obeyed -/

/-- An iteration that reports no change changes nothing. -/
theorem accounts_iterate (h : r.Monotone) (hw : w.interpretation.Regular) (t iteration : Nat) :
    w.Accounts (r.iterate t iteration w).1 := by
  have hperform {v : Work} {e : Effect} (hv : v.interpretation.Regular ∧ w.Accounts v)
      (he : e.Narrows) : (v.perform r.config r.pairing e).1.interpretation.Regular ∧
        w.Accounts (v.perform r.config r.pairing e).1 :=
    ⟨Work.perform_regular he.carries hv.1, hv.2.trans (Work.accounts_perform he h.partners hv.1)⟩
  have hfold : (r.iterate t iteration w).1.interpretation.Regular ∧
      w.Accounts (r.iterate t iteration w).1 :=
    foldUntil_invariant_mem (P := fun v => v.interpretation.Regular ∧ w.Accounts v)
      (fun stage hs v hv => foldUntil_invariant_mem
        (P := fun v : Work => v.interpretation.Regular ∧ w.Accounts v)
        (fun e he u hu => hperform hu (h.narrows_of_mem_stage hs he)) hv)
      ⟨hw, .refl w⟩
  exact hfold.2

/-- Where the stages of an iteration are at rest, the rules are obeyed. -/
theorem obeys_of_rests (h : r.Monotone) (hi : i.Regular)
    (hrests : ∀ stage ∈ r.stages t iteration, Stage.Rests r.pairing stage i) :
    ∀ rule ∈ r.rules, i.Obeys rule := by
  intro rule hrule b hb c happlies
  have hmonotone := h.rules rule hrule
  obtain ⟨w, hw, hstatic⟩ := happlies.exists_world hmonotone.inference
  obtain ⟨g, hg, rfl⟩ := happlies.exists_mem_ground hmonotone.inference r.config
  have he : Effect.assert (rule.assertion g t iteration g.component rule.target b)
      ∈ rule.stage r.config t iteration i :=
    List.mem_flatMap.2 ⟨g, hg, by rw [hmonotone.effects_eq hb hg]; exact List.mem_singleton_self _⟩
  -- What the rule asks for here, it asked for when the stage was carried out, and that is at rest.
  obtain ⟨stage, hs, hsub⟩ := h.exists_stage hrule t iteration
  obtain ⟨stage', hs', hasked⟩ := mem_stage_of_freezes iteration hs
  obtain ⟨j, hfreezes, hrest⟩ := hrests stage' hs'
  obtain ⟨e', he', heq⟩ := hasked hfreezes _ (hsub i _ he)
  obtain ⟨u, hu, hsettled, -⟩ : Effect.Rests r.pairing i
      (.assert (rule.assertion g t iteration g.component rule.target b)) :=
    heq ▸ (hrest e' he').renumber iteration
  obtain rfl : u = w := Option.some.inj (hu.symm.trans hw)
  rw [h.partners] at hsettled
  unfold Interpretation.satisfies
  rw [hw]
  exact hsettled.satisfies (hi.proper _ u hw) (hmonotone.of_head hb).1 hstatic

/-- Where the loop ends, the rules are obeyed. -/
theorem obeys_fixpoint (h : r.Monotone) (hw : w.interpretation.Regular)
    (hgoes : (r.fixpoint t more iteration w).2 = none) (hends : r.LoopEnds t more iteration w) :
    ∀ rule ∈ r.rules, (r.fixpoint t more iteration w).1.interpretation.Obeys rule := by
  obtain ⟨last, hlast, hi, -, hhalt⟩ := r.fixpoint_last t more iteration w
  have hmem := List.mem_of_getLast? hlast
  obtain ⟨hbefore, hiterate⟩ := iterate_of_mem_passes hmem
  obtain ⟨hregular, hregular'⟩ := (keptByEffects_regular r).passes (h.asks_narrows t) more hw
    iteration last hmem
  rw [hgoes] at hhalt
  rw [← hhalt] at hiterate
  have hconverged : last.after.progress.changedAtoms = 0 := by
    unfold LoopEnds at hends
    rw [hlast, Option.any_some] at hends
    unfold goesOn at hends
    rw [← hhalt, h.convergence] at hends
    simpa [Progress.converged] using hends
  have hzero : last.after.progress.changedAtoms = last.before.progress.changedAtoms := by
    rw [hconverged, hbefore]
    rfl
  have hsame := (h.accounts_iterate hregular t last.iteration).silent
    (by rw [hiterate]; exact hzero)
  rw [hiterate] at hsame
  have hquiet : last.before.Quiet last.after := by
    refine ⟨hzero, ?_⟩
    rw [show last.after.interpretation = last.before.interpretation from hsame]
    exact ⟨rfl, fun _ _ hnone => hnone⟩
  have hcarries (rule : Rule) (hrule : rule ∈ r.rules) : rule.Carries Interval.Ordered :=
    fun b hb => ((h.rules rule hrule).carries b hb).2.2
  rw [hi]
  exact h.obeys_of_rests hregular' (iterate_quiet hcarries hiterate hquiet)

/-- The loop stops at conflicts only. -/
theorem fixpoint_goes (hfits : w.interpretation.Fits) (hagrees : r.LoopAgrees t more iteration w) :
    (r.fixpoint t more iteration w).2 = none := by
  obtain ⟨-, hconflict⟩ := r.fixpoint_over (t := t) more (w := w) ⟨hfits, .refl _⟩ iteration
  cases hhalt : (r.fixpoint t more iteration w).2 with
  | none => rfl
  | some halt =>
    cases halt with
    | failure error => exact (hconflict _ hhalt).elim
    | conflict conflict =>
      obtain ⟨a, ha, hstop⟩ := fixpoint_halt hhalt
      rw [← Work.perform_withPolicy (hagrees a ha) .resolve] at hstop
      exact absurd hstop (Work.perform_ne_conflict (by rintro ⟨⟩) _ _ _)

end Monotone

/-! ## The order of the rules -/

/-- An interpretation that reasoning leads to: one that a reasoner holds, or finds in the middle of a
call. All bounds that it was given are truth values. -/
def Reached (i : Interpretation) : Prop :=
  ∃ q : Reasoner, q.Reachable (Rule.Carries IsProper) (fun f => f.bound.IsProper) ∧
    (i = q.interpretation ∨
      ∃ c : Call, c.Brings (Rule.Carries IsProper) (fun f => f.bound.IsProper) ∧
        ∃ x ∈ q.callAttempts c, i = x.before.interpretation)

theorem Reached.regular {i : Interpretation} (h : Reached i) : i.Regular := by
  obtain ⟨q, hq, hi⟩ := h
  have hlatticed : q.Latticed := kept_latticed.reachable latticed_create hq
  rcases hi with rfl | ⟨c, hc, x, hx, rfl⟩
  · exact ⟨hq.sound.fits, fun d w hw label a ha => (hlatticed.latticed.stored d w hw label a ha).1⟩
  · obtain ⟨s, hs, hmem⟩ := exists_start_of_mem_callAttempts hx
    have hfound := (kept_latticed.callStarts hlatticed hc hs).of_mem_attempts hmem
    exact ⟨(hq.sound.over_of_mem_callAttempts hx).fits,
      fun d w hw label a ha => (hfound.stored d w hw label a ha).1⟩

/-- Let two reasoners have the same monotone rules, in any order and whichever of them are immediate, and
let the loop of a timestep run from one interpretation, over a graph whose edges a machine can count,
without using up its iterations. If the loop of the first one runs into no conflict, then neither does
that of the second one; none of them stops, and they end with the same atoms and equal bounds. -/
theorem loop_order_irrelevant {r s : Reasoner} (hr : r.Monotone) (hs : s.Monotone)
    (hrules : r.SameRules s) {w : Work} (hw : Reached w.interpretation)
    (hlarge : w.interpretation.graph.edges.length < 2 ^ 64) {t m n : Nat}
    (hfirst : r.LoopEnds t m 1 w) (hsecond : s.LoopEnds t n 1 w) (hagrees : r.LoopAgrees t m 1 w) :
    s.LoopAgrees t n 1 w ∧ (r.fixpoint t m 1 w).2 = none ∧ (s.fixpoint t n 1 w).2 = none ∧
      (s.fixpoint t n 1 w).1.interpretation.graph = (r.fixpoint t m 1 w).1.interpretation.graph ∧
      ∀ c label, Option.Rel (fun a b => a.same b = true)
        ((r.fixpoint t m 1 w).1.interpretation.bound? c label)
        ((s.fixpoint t n 1 w).1.interpretation.bound? c label) := by
  have hregular := hw.regular
  have hproper {q : Reasoner} (hq : q.Monotone) (more : Nat) :
      (q.fixpoint t more 1 w).1.interpretation.All IsProper :=
    ((Monotone.keptByEffects_regular q).fixpoint (hq.asks_narrows t) more hregular 1).proper
  -- The first loop leads up, to where the rules are obeyed.
  have hup := hr.below_fixpoint hregular hagrees
  have hgoes := Monotone.fixpoint_goes hregular.fits hagrees
  have hobeys := hr.obeys_fixpoint hregular hgoes hfirst
  -- The second one leads no further, and it leads to such a place as well.
  obtain ⟨hagrees', hbelow⟩ := hs.fixpoint_below (hrules.obeys hobeys) (hproper hr m)
    (hup.graph ▸ hlarge) hregular hup t n 1
  have hup' := hs.below_fixpoint hregular hagrees'
  have hgoes' := Monotone.fixpoint_goes hregular.fits hagrees'
  have hobeys' := hs.obeys_fixpoint hregular hgoes' hsecond
  -- So the first one leads no further than the second one.
  obtain ⟨-, hbelow'⟩ := hr.fixpoint_below (hrules.symm.obeys hobeys') (hproper hs n)
    (hup'.graph ▸ hlarge) hregular hup' t m 1
  exact ⟨hagrees', hgoes, hgoes', hbelow'.graph, hbelow'.antisymm hbelow⟩

/-- One rule makes a label certain and another one, which comes before it, asks for this label. As long as
none of them is immediate, the loop needs a pass more. -/
theorem loop_order_irrelevant_immediate :
    let use : Rule :=
      { Rule.simple .node "use" ⟨"s"⟩ with delay := 0, criteria := [(⟨"q"⟩, .certain)] }
    let make : Rule := { Rule.simple .node "make" ⟨"q"⟩ with delay := 0 }
    ∃ q, create (Graph.empty.addNode ⟨"a"⟩) {} .standard = .ok q ∧
      let r := (q.calls [.addRule use, .addRule make]).1
      let s := (q.calls [.addRule { make with immediate := true }, .addRule use]).1
      let w : Work := ⟨q.interpretation, q.trace, .nothing⟩
      (r.passes 0 9 1 w).length = 3 ∧ (s.passes 0 9 1 w).length = 2 ∧ s.LoopAgrees 0 9 1 w ∧
        ∀ c label, Option.Rel (fun a b => a.same b = true)
          ((r.fixpoint 0 9 1 w).1.interpretation.bound? c label)
          ((s.fixpoint 0 9 1 w).1.interpretation.bound? c label) := by
  intro use make
  refine ⟨_, rfl, ?_⟩
  intro r s w
  have huse : use.Monotone :=
    ⟨rfl, rfl, rfl, ⟨.certain, rfl, by decide, by decide⟩, by simp [use, Rule.simple]⟩
  have hmake (immediate : Bool) : { make with immediate := immediate }.Monotone :=
    ⟨rfl, rfl, rfl, ⟨.certain, rfl, by decide, by decide⟩, by simp [make, Rule.simple]⟩
  have hr : r.Monotone :=
    ⟨rfl, rfl, List.forall_mem_cons.2 ⟨huse, List.forall_mem_singleton.2 (hmake false)⟩⟩
  have hs : s.Monotone :=
    ⟨rfl, rfl, List.forall_mem_cons.2 ⟨hmake true, List.forall_mem_singleton.2 huse⟩⟩
  have hw : Reached w.interpretation :=
    ⟨_, .create (show create (Graph.empty.addNode ⟨"a"⟩) {} .standard = .ok _ from rfl), .inl rfl⟩
  obtain ⟨hagrees, -, -, -, hsame⟩ := loop_order_irrelevant (t := 0) (m := 9) (n := 9) hr hs
    (by decide +kernel) hw (by decide) (by decide +kernel) (by decide +kernel) (by decide +kernel)
  exact ⟨by decide +kernel, by decide +kernel, hagrees, hsame⟩

end Reasoner

end AnnotatedLogic
