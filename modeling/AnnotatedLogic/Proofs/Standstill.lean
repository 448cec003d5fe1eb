import AnnotatedLogic.Proofs.Accepted
import AnnotatedLogic.Proofs.FixedPoint
import AnnotatedLogic.Proofs.Previous
import AnnotatedLogic.Proofs.Stopping
/-!
# Where no bound may move

Under `deltaBound 0` the loop ends with the first iteration in which every update leaves the atoms that it
changes at their previous bounds. Without a reset these are `[0, 1]`, and an update without conflict never
leaves an atom there that it changes; so the loop goes as far as under `perfect`. After a reset an
iteration may bring atoms back to the bounds of the timestep before. It has changed them, and it ends the
loop.

* `Attempt.changed`, `Reasoner.changed`: what an effect and an iteration make of the atoms that they change.
* `changedAtoms_eq_zero_iff`, `movement_le_zero_iff`: what the two tests of an iteration say of these.
* `World.Informed`: what narrows is known afterwards. So `changed_known`: an update without conflict does not
  leave an atom unknown that it changes.
* `Interpretation.HasNoPast`: nothing has been reset. `changed_eq_nil` says what an update without conflict is
  then that moves no bound.
* `goesOn_iff`, `standstill`: where the loop ends under `deltaBound 0`.
* `standstill_breaks_chain`: it may end before a chain of rules has been followed to its end.
-/

namespace AnnotatedLogic

/-! ## What is changed -/

/-- The bounds are the previous ones. -/
def Interval.Unmoved (i : Interval) : Prop := i.same i.previous = true

instance (i : Interval) : Decidable i.Unmoved := inferInstanceAs (Decidable (_ = _))

/-- What an effect makes of the atoms that it changes. -/
def Attempt.changed (config : Config) (pairing : Pairing) (x : Attempt) : List Interval :=
  match x.effect with
  | .link _ => []
  | .assert a => (x.before.interpretation.altered config pairing a).map fun label =>
      (x.before.perform config pairing x.effect).1.interpretation.bound a.component label

/-- What an iteration makes of the atoms that it changes, one effect after the other. -/
def Reasoner.changed (r : Reasoner) (t : Nat) (p : Pass) : List Interval :=
  (r.iterateAttempts t p.iteration p.before).flatMap (·.changed r.config r.pairing)

namespace Work

variable {config : Config} {pairing : Pairing} {w u : Work} {e : Effect}

/-- An effect that does not stop the work adds an edge and makes no progress, or it is an assertion whose
outcome is the progress. -/
theorem perform_completed (h : w.perform config pairing e = (u, none)) :
    (∃ edge, e = .link edge ∧ u.progress = w.progress) ∨
      ∃ a response, e = .assert a ∧ w.interpretation.assert config pairing a = .ok response ∧
        u.interpretation = response.interpretation ∧ u.progress = w.progress.absorb response.outcome := by
  obtain ⟨i, trace, progress⟩ := w
  cases e with
  | link edge =>
    cases hadd : i.addEdge edge <;> simp only [perform, hadd] at h <;> cases h
    exact .inl ⟨edge, rfl, rfl⟩
  | assert a =>
    cases hassert : i.assert config pairing a with
    | error error =>
      simp only [perform, hassert] at h
      cases h
    | ok response =>
      cases hrefusal : response.outcome.refusal? <;> simp only [perform, hassert, hrefusal] at h <;> cases h
      exact .inr ⟨a, response, rfl, hassert, rfl, rfl⟩

/-- Values and trace are in the lattice, and the movement so far is a number. -/
structure Measured (w : Work) : Prop where
  latticed : w.interpretation.Latticed w.trace
  number : w.progress.movement.IsNumber

theorem Measured.perform (hw : w.Measured) (he : e.Carries Interval.IsProper)
    (h : w.perform config pairing e = (u, none)) : u.Measured := by
  have hlatticed := perform_latticed config pairing he hw.latticed
  rw [h] at hlatticed
  refine ⟨hlatticed, ?_⟩
  rcases perform_completed h with ⟨_, -, hprogress⟩ | ⟨_, _, -, -, -, hprogress⟩ <;> rw [hprogress]
  · exact hw.number
  · exact hw.number.larger

/-- What an assertion that does not stop the work makes of the atoms that it changes. -/
theorem changed_assert {a : Assertion} (h : w.perform config pairing (.assert a) = (u, none)) :
    (⟨w, .assert a⟩ : Attempt).changed config pairing =
      (w.interpretation.altered config pairing a).map (u.interpretation.bound a.component ·) := by
  unfold Attempt.changed
  dsimp only
  rw [h]

/-- No atom has changed so far if none had before the effect and the effect changes none. -/
theorem perform_changedAtoms (h : w.perform config pairing e = (u, none)) :
    u.progress.changedAtoms = 0 ↔
      w.progress.changedAtoms = 0 ∧ (⟨w, e⟩ : Attempt).changed config pairing = [] := by
  rcases perform_completed h with ⟨edge, rfl, hprogress⟩ | ⟨a, response, rfl, hassert, -, hprogress⟩
  · rw [hprogress]
    exact (and_iff_left rfl).symm
  · obtain ⟨hcount, -⟩ := Interpretation.assert_movement hassert
    rw [hprogress, changed_assert h, List.map_eq_nil_iff, ← List.length_eq_zero_iff, ← hcount]
    exact Nat.add_eq_zero_iff

/-- No bound has moved so far if none had before the effect and the effect moves none. -/
theorem perform_movement (hw : w.Measured) (he : e.Carries Interval.IsProper)
    (h : w.perform config pairing e = (u, none)) :
    u.progress.movement ≤ 0 ↔
      w.progress.movement ≤ 0 ∧ ∀ i ∈ (⟨w, e⟩ : Attempt).changed config pairing, i.Unmoved := by
  have hu := (hw.perform he h).latticed.stored
  rcases perform_completed h with ⟨edge, rfl, hprogress⟩ | ⟨a, response, rfl, hassert, hi, hprogress⟩
  · rw [hprogress]
    exact (and_iff_left (List.forall_mem_nil _)).symm
  · obtain ⟨-, hmovement⟩ := Interpretation.assert_movement hassert
    rw [← hi] at hmovement
    have hbound (label : Label) : (u.interpretation.bound a.component label).InLattice :=
      hu.bound Interval.closed_inLattice a.component label
    have hzero : Degree.IsNumber 0 := by decide
    have hnumbers : ∀ d ∈ (w.interpretation.altered config pairing a).map fun label =>
        (u.interpretation.bound a.component label).movement, d.IsNumber :=
      List.forall_mem_map.2 fun label _ =>
        Degree.isNumber_of_inUnit (Interval.inUnit_distance (hbound label).1 (hbound label).2)
    have hnumber : response.outcome.movement.IsNumber := hmovement ▸ Degree.isNumber_foldl_larger hzero _
    have hmoved : response.outcome.movement ≤ 0 ↔
        ∀ label ∈ w.interpretation.altered config pairing a,
          (u.interpretation.bound a.component label).Unmoved := by
      rw [hmovement, Degree.foldl_larger_le_iff hzero hnumbers, List.forall_mem_map,
        and_iff_right (by decide +kernel)]
      exact forall₂_congr fun label _ => Interval.movement_le_zero_iff (hbound label)
    rw [hprogress, changed_assert h, List.forall_mem_map, ← hmoved]
    exact Degree.larger_le_iff hw.number hnumber

end Work

/-! ## The tests of an iteration -/

namespace Reasoner

variable {r : Reasoner} {t : Nat}

theorem forall_mem_changed {P : Interval → Prop} {p : Pass} :
    (∀ i ∈ r.changed t p, P i) ↔ ∀ x ∈ r.iterateAttempts t p.iteration p.before,
      ∀ i ∈ x.changed r.config r.pairing, P i := by
  unfold changed
  simp only [List.mem_flatMap]
  exact ⟨fun h x hx i hi => h i ⟨x, hx, hi⟩, fun h i ⟨x, hx, hi⟩ => h x hx i hi⟩

/-- If an effect keeps `P` exactly where its attempt has `G`, then an iteration that is not stopped keeps `P`
exactly where all its attempts have `G`. -/
theorem iterate_iff_attempts (hr : r.Latticed) {P : Work → Prop} {G : Attempt → Prop}
    (hP : ∀ {w u e}, w.Measured → e.Carries Interval.IsProper →
      w.perform r.config r.pairing e = (u, none) → (P u ↔ P w ∧ G ⟨w, e⟩))
    {iteration : Nat} {w u : Work} (hw : w.Measured) (h : r.iterate t iteration w = (u, none)) :
    P u ↔ P w ∧ ∀ x ∈ r.iterateAttempts t iteration w, G x := by
  -- First over the stages of the iteration, then over the effects of a stage.
  refine (foldUntil_iff_log (I := Work.Measured) (fun stage hstage v v' hv hv' => ?_) hw h).2
  refine foldUntil_iff_log (I := Work.Measured) (fun e he v v' hv hv' => ?_) hv hv'
  have hproper : e.Carries Interval.IsProper :=
    hr.carries.performs Interval.closed_isProper (performs_of_mem_stage hstage he)
  refine ⟨hv.perform hproper hv', (hP hv hproper hv').trans (and_congr_right fun _ => ?_)⟩
  exact List.forall_mem_singleton.symm

/-- The values that an iteration of a timestep finds are in the lattice. -/
theorem Latticed.measured_before (hr : r.Latticed) {p : Pass} (hp : p ∈ r.timestepPasses t) :
    p.before.Measured := by
  have hlatticed := r.keptByEffects_latticed.timestepPasses (hr.startWork t)
    (hr.carries.performs Interval.closed_isProper) p hp
  refine ⟨hlatticed.1, ?_⟩
  rw [(iterate_of_mem_timestepPasses hp).1]
  exact (by decide : Degree.IsNumber 0)

theorem iterate_of_halt {p : Pass} (hp : p ∈ r.timestepPasses t) (h : p.halt = none) :
    r.iterate t p.iteration p.before = (p.after, none) := by
  rw [(iterate_of_mem_timestepPasses hp).2, h]

/-- An iteration counts no change if it changes no atom. -/
theorem changedAtoms_eq_zero_iff (hr : r.Latticed) {p : Pass} (hp : p ∈ r.timestepPasses t)
    (h : p.halt = none) : p.after.progress.changedAtoms = 0 ↔ r.changed t p = [] := by
  rw [iterate_iff_attempts hr (P := fun w => w.progress.changedAtoms = 0)
    (G := fun x => x.changed r.config r.pairing = [])
    (fun _ _ hperform => Work.perform_changedAtoms hperform) (hr.measured_before hp)
    (iterate_of_halt hp h), (iterate_of_mem_timestepPasses hp).1]
  unfold changed
  rw [List.flatMap_eq_nil_iff]
  exact and_iff_right rfl

/-- An iteration measures no movement if it leaves all atoms that it changes at their previous bounds. -/
theorem movement_le_zero_iff (hr : r.Latticed) {p : Pass} (hp : p ∈ r.timestepPasses t)
    (h : p.halt = none) : p.after.progress.movement ≤ 0 ↔ ∀ i ∈ r.changed t p, i.Unmoved := by
  rw [iterate_iff_attempts hr (P := fun w => w.progress.movement ≤ 0)
    (G := fun x => ∀ i ∈ x.changed r.config r.pairing, i.Unmoved) Work.perform_movement
    (hr.measured_before hp) (iterate_of_halt hp h), (iterate_of_mem_timestepPasses hp).1,
    forall_mem_changed]
  exact and_iff_right (by decide +kernel : (0 : Degree) ≤ 0)

end Reasoner

/-! ## What narrows is known -/

open AnnotatedLogic.Interval

namespace World

variable {w v u : World} {b : Interval} {label : Label} {changes others : List Change}

/-- What is known stays known when a world is tightened. -/
theorem Tightens.known (h : w.Tightens v) (hw : w.All IsProper) (hl : (w.bound label).isUnknown = false) :
    (v.bound label).isUnknown = false := by
  cases ha : w.get? label with
  | none =>
    rw [bound_of_get?_eq_none ha] at hl
    exact absurd hl (by decide)
  | some a =>
    obtain ⟨b, hb, hwithin⟩ := h.atoms ha
    rw [bound_of_get? ha] at hl
    rw [bound_of_get? hb]
    refine Bool.eq_false_iff.2 fun hunknown => Bool.eq_false_iff.1 hl ?_
    exact isUnknown_of_contains (hw label a ha) (hwithin.trans (contains_of_same hunknown))

/-- A world is tightened, and nothing is unknown that has been changed. -/
structure Informed (w : World) (changes : List Change) (v : World) : Prop where
  proper : v.All IsProper
  tightens : w.Tightens v
  known : ∀ c ∈ changes, (v.bound c.label).isUnknown = false

theorem informed_refl (hw : w.All IsProper) : w.Informed [] w := ⟨hw, tightens_refl hw, by simp⟩

theorem Informed.trans (h : w.Informed changes v) (h' : v.Informed others u) :
    w.Informed (changes ++ others) u :=
  ⟨h'.proper, h.tightens.trans h'.tightens,
    List.forall_mem_append.2 ⟨fun c hc => h'.tightens.known h.proper (h.known c hc), h'.known⟩⟩

theorem informed_learnFor (hw : w.All IsProper) (hb : b.IsProper) (cause : Cause) (label : Label) :
    w.Informed (w.learnFor cause b label).2 (w.learnFor cause b label).1 := by
  have htightens := tightens_learnFor hw hb cause label
  unfold learnFor learn at htightens ⊢
  cases hpreview : w.preview label b with
  | unchanged => exact informed_refl hw
  | contradiction existing incoming => exact informed_refl hw
  | changed old new =>
    rw [hpreview] at htightens
    obtain ⟨-, rfl, hdisjoint, hchanged⟩ := preview_changed hpreview
    have hbound := hw.bound closed_isProper label
    refine ⟨hw.put (hbound.meet hb), htightens, List.forall_mem_singleton.2 ?_⟩
    rw [bound_put, if_pos rfl]
    -- An unknown meet would be the interval that the label had, which is as wide as any.
    refine Bool.eq_false_iff.2 fun hunknown => Bool.eq_false_iff.1 hchanged ?_
    have hwide : ((w.bound label).meet b).Contains .unknown :=
      contains_of_same (show ((w.bound label).meet b).same .unknown = true from hunknown)
    exact same_of_contains (hwide.trans (unknown_contains hbound))
      (contains_meet hbound hb hdisjoint).1

theorem informed_learnOpposite (hw : w.All IsProper) (hb : b.IsProper) (label : Label) :
    w.Informed (w.learnOpposite b label).2 (w.learnOpposite b label).1 := by
  unfold learnOpposite
  split
  · exact informed_refl hw
  · have hadded : (w.addLabel label).All IsProper :=
      (Edits.refl.addLabel label).all closed_isProper hw
    have hfirst : w.Informed [] (w.addLabel label) := ⟨hadded, tightens_addLabel hw label, by simp⟩
    exact hfirst.trans (informed_learnFor hadded hb .pairing label)

theorem informed_learnOpposites (hw : w.All IsProper) (hb : b.IsProper) (labels : List Label) :
    w.Informed (changeEach (learnOpposite b) w labels).2 (changeEach (learnOpposite b) w labels).1 := by
  induction labels generalizing w with
  | nil => exact informed_refl hw
  | cons label labels ih =>
    have hfirst := informed_learnOpposite hw hb label
    exact hfirst.trans (ih hfirst.proper)

/-- A label that learns a bound is known if it changes, and so are the opposite ones. -/
theorem informed_learnAll (hw : w.All IsProper) (hb : b.IsProper) (label : Label)
    (opposites : List Label) (cause : Cause) :
    w.Informed (w.learnAll label b opposites cause).2 (w.learnAll label b opposites cause).1 := by
  have hfirst := informed_learnFor hw hb cause label
  exact hfirst.trans (informed_learnOpposites hfirst.proper (closed_isProper.complement hb) opposites)

end World

namespace Interpretation

variable {config : Config} {pairing : Pairing} {i : Interpretation} {a : Assertion} {w : World}

/-- An assertion that narrows without conflict leaves no atom unknown that it changes. -/
theorem altered_known (hw : w.All IsProper) (hi : i.world? a.component = some w) (ha : a.Informs)
    (hc : a.conflict? pairing w = none) :
    ∀ label ∈ i.altered config pairing a,
      ((i.assertOn config pairing a w).interpretation.bound a.component label).isUnknown = false := by
  rw [altered_of_world? hi]
  cases hs : w.isStatic a.label with
  | true => simp [assertOn_static hs]
  | false =>
    cases hjudge : w.judge a.label a.bound (pairing.partners a.label) with
    | nothingNew => simp [assertOn_nothingNew hs ha.replaces hjudge]
    | clashes clashing existing incoming =>
      have hconflict := Assertion.conflict?_eq_some.2 ⟨hs, ha.replaces, _, _, _, hjudge, rfl⟩
      rw [hc] at hconflict
      cases hconflict
    | narrows narrowed =>
      obtain ⟨old, hpreview, -⟩ := World.judge_narrows hjudge
      obtain ⟨-, rfl, -, -⟩ := World.preview_changed hpreview
      have hproper := (hw.bound closed_isProper a.label).meet ha.bound
      have hinformed := World.informed_learnAll hw hproper a.label (pairing.partners a.label) a.source.cause
      have hlabels (learned : World × List Change) :
          (i.commit config.tracingAll a (a.freeze learned.1) learned.2 "" none).entries.map (·.label)
            = learned.2.map (·.label) := by
        unfold commit
        dsimp only
        rw [if_pos (config.traces_tracingAll a.source), List.map_map]
        rfl
      rw [assertOn_narrows hs ha.replaces hjudge, assertOn_narrows hs ha.replaces hjudge]
      dsimp only
      rw [hlabels]
      refine List.forall_mem_map.2 fun c hchange => ?_
      rw [bound_of_world? (((commit_view i config a _ _ _ _).2 a.component).trans (if_pos rfl))]
      exact (World.tightens_freeze hinformed.proper a).known hinformed.proper (hinformed.known c hchange)

/-! ## Where nothing has been reset -/

/-- Nothing was known of any atom before a reset: there has been none. -/
def HasNoPast (i : Interpretation) : Prop := ∀ c label, (i.bound c label).previous = .unknown

theorem Recalls.hasNoPast {j : Interpretation} (h : i.Recalls j) (hi : i.HasNoPast) : j.HasNoPast :=
  fun c label => (h c label).trans (hi c label)

theorem hasNoPast_ofGraph (graph : Graph) (labelling : Labelling) : (ofGraph graph labelling).HasNoPast := by
  intro c label
  unfold bound
  cases hb : (ofGraph graph labelling).bound? c label with
  | none => rfl
  | some b => rw [bound?_ofGraph hb]; rfl

end Interpretation

namespace Reasoner

variable {r : Reasoner}

theorem startWork_of_noReset {t : Nat} (h : t = 0 ∨ r.config.persistent = true) :
    (r.startWork t).interpretation = r.interpretation := by
  unfold startWork
  dsimp only
  rw [if_neg]
  rintro ⟨hpos, hreset⟩
  rcases h with rfl | hpersistent
  · exact absurd hpos (Nat.lt_irrefl 0)
  · rw [hreset] at hpersistent
    cases hpersistent

/-- Where no timestep starts with a reset, no atom ever gets a past. -/
theorem kept_hasNoPast (rules : Rule → Prop) (facts : Fact → Prop) :
    Kept rules facts fun r => r.Sound ∧
      (r.nextTime = 0 ∨ r.config.persistent = true → r.interpretation.HasNoPast) where
  timestep {r} h := by
    refine ⟨(kept_sound rules facts).timestep h.1, fun hnone => ?_⟩
    rw [timestep_nextTime, timestep_config] at hnone
    have hrecalls := recalls_of_visits h.1 .exit
    rw [startWork_of_noReset hnone] at hrecalls
    exact hrecalls.hasNoPast (h.2 hnone)
  complete {r s progress} h hs := by
    refine ⟨(kept_sound rules facts).complete h.1 hs, fun hnone => ?_⟩
    -- The timestep after this one is not the first, so only persistent values are without a reset.
    have hpersistent : r.config.persistent = true := by
      rw [← (sameSetup_timestep hs).config]
      exact hnone.resolve_left (Nat.succ_ne_zero _)
    have hrecalls := recalls_of_visits h.1 .exit
    rw [startWork_of_noReset (.inr hpersistent), exit_of_completed hs] at hrecalls
    exact hrecalls.hasNoPast (h.2 (.inr hpersistent))
  addRule h hrule hv := ⟨(kept_sound rules facts).addRule h.1 hrule hv, h.2⟩
  addFact h hfact steps hv := ⟨(kept_sound rules facts).addFact h.1 hfact steps hv, h.2⟩
  setPairing h pairing := ⟨(kept_sound rules facts).setPairing h.1 pairing, h.2⟩

theorem hasNoPast_create {graph : Graph} {labelling : Labelling} {config : Config}
    (h : create graph labelling config = .ok r) : r.interpretation.HasNoPast := by
  unfold create at h
  split at h <;> cases h
  exact Interpretation.hasNoPast_ofGraph graph labelling

/-! ## The end of the loop -/

/-- What the rules assert in an iteration narrows. -/
theorem Latticed.informs (hr : r.Latticed) {t : Nat} {p : Pass} (hp : p ∈ r.timestepPasses t)
    {x : Attempt} (hx : x ∈ r.iterateAttempts t p.iteration p.before) {a : Assertion}
    (ha : x.effect = .assert a) : a.Informs := by
  have hordered : ∀ rule ∈ r.rules, rule.Carries Interval.Ordered :=
    fun rule hrule b hb => (hr.carries.rules rule hrule b hb).2.2
  have hruled : ∀ y ∈ r.iterateAttempts t p.iteration p.before, y.effect.Ruled := by
    refine forall_mem_logUntil (P := fun _ => True) (fun stage hstage u _ => ⟨trivial, ?_⟩) trivial
    refine forall_mem_logUntil (P := fun _ => True) (fun e he v _ => ⟨trivial, ?_⟩) trivial
    exact List.forall_mem_singleton.2 (stage_ruled hordered hstage he)
  have hcarries := (hr.attempts (mem_attempts_of_mem_timestepPasses hp hx)).2
  have hreplaces := hruled x hx
  rw [ha] at hcarries hreplaces
  exact ⟨hreplaces.1, hcarries⟩

/-- Where nothing has been reset, an update without conflict that moves no bound changes nothing. -/
theorem changed_eq_nil (hr : r.Latticed) (hsound : r.Sound)
    (hnone : r.nextTime = 0 ∨ r.config.persistent = true) (hpast : r.interpretation.HasNoPast)
    {p : Pass} (hp : p ∈ r.timestepPasses r.nextTime) {x : Attempt}
    (hx : x ∈ r.iterateAttempts r.nextTime p.iteration p.before) (hc : x.conflict? r.pairing = none)
    (hunmoved : ∀ i ∈ x.changed r.config r.pairing, i.Unmoved) :
    x.changed r.config r.pairing = [] := by
  have hmem := mem_attempts_of_mem_timestepPasses hp hx
  have hafter := recalls_of_visits hsound (.after hmem)
  rw [startWork_of_noReset hnone] at hafter
  refine List.eq_nil_iff_forall_not_mem.2 fun i hi => ?_
  have hsame := hunmoved i hi
  unfold Attempt.changed at hi
  split at hi
  · cases hi
  · next a ha =>
    obtain ⟨label, hlabel, rfl⟩ := List.mem_map.1 hi
    unfold Interval.Unmoved at hsame
    rw [(hafter.hasNoPast hpast) a.component label, ha] at hsame
    cases hw : x.before.interpretation.world? a.component with
    | none =>
      rw [Interpretation.altered_of_world?_eq_none hw] at hlabel
      cases hlabel
    | some w =>
      have hproper : w.All Interval.IsProper := fun l k hk =>
        ((hr.of_mem_attempts hmem).stored a.component w hw l k hk).1
      have hfree : a.conflict? r.pairing w = none := by
        simpa [Attempt.conflict?, Interpretation.conflict?, ha, hw] using hc
      have hknown := Interpretation.altered_known hproper hw (hr.informs hp hx ha) hfree label hlabel
      rw [Work.interpretation_perform (Interpretation.assert_of_world? r.config r.pairing hw)] at hsame
      exact Bool.eq_false_iff.1 hknown hsame

/-- Under `deltaBound 0` the loop goes on after an iteration that is not stopped and leaves an atom away from
its previous bounds, and after no other. -/
theorem goesOn_iff (hr : r.Latticed) (hzero : r.config.convergence = .deltaBound 0) {t : Nat} {p : Pass}
    (hp : p ∈ r.timestepPasses t) :
    r.goesOn p = true ↔ p.halt = none ∧ ∃ i ∈ r.changed t p, ¬ i.Unmoved := by
  unfold goesOn
  rw [Bool.and_eq_true, Option.isNone_iff_eq_none, Bool.not_eq_true', hzero]
  refine and_congr_right fun hhalt => ?_
  have hmoved : (∃ i ∈ r.changed t p, ¬ i.Unmoved) ↔ ¬ p.after.progress.movement ≤ 0 := by
    rw [movement_le_zero_iff hr hp hhalt]
    push Not
    rfl
  rw [hmoved]
  exact decide_eq_false_iff_not

/-- Where nothing has been reset and no update runs into a conflict, the loop goes through the same iterations
as under `perfect`. -/
theorem timestepPasses_perfect (hr : r.Latticed) (hzero : r.config.convergence = .deltaBound 0)
    (hsound : r.Sound) (hnone : r.nextTime = 0 ∨ r.config.persistent = true)
    (hpast : r.interpretation.HasNoPast)
    (hfree : ∀ p ∈ r.timestepPasses r.nextTime,
      ∀ x ∈ r.iterateAttempts r.nextTime p.iteration p.before, x.conflict? r.pairing = none) :
    (r.withConvergence .perfect).timestepPasses r.nextTime = r.timestepPasses r.nextTime := by
  refine timestepPasses_withConvergence fun p hp hhalt => ?_
  have hsame : p.after.progress.movement ≤ 0 ↔ p.after.progress.changedAtoms = 0 := by
    rw [movement_le_zero_iff hr hp hhalt, changedAtoms_eq_zero_iff hr hp hhalt]
    refine ⟨fun hall => ?_, fun hnil => hnil ▸ List.forall_mem_nil _⟩
    unfold changed
    rw [List.flatMap_eq_nil_iff]
    exact fun x hx => changed_eq_nil hr hsound hnone hpast hp hx (hfree p hp x hx)
      (forall_mem_changed.1 hall x hx)
  rw [hzero, Bool.eq_iff_iff]
  exact decide_eq_true_iff.trans (hsame.trans beq_iff_eq.symm)

/-- Under `deltaBound 0`, at every timestep of every call and whatever calls with proper bounds came before:
the loop goes on after each iteration in which some update leaves an atom that it changes away from its
previous bounds, and unless it is stopped or comes to its limit it ends with the first iteration in which
none does. Where nothing has been reset, in the first timestep and where values persist, an update of such
an iteration changes nothing unless it runs into a conflict; without conflicts the loop goes through the
same iterations as under `perfect`. -/
theorem standstill {r s : Reasoner}
    (h : r.Reachable (Rule.Carries Interval.IsProper) fun f => f.bound.IsProper)
    (hzero : r.config.convergence = .deltaBound 0) {c : Call}
    (hc : c.Brings (Rule.Carries Interval.IsProper) fun f => f.bound.IsProper)
    (hs : s ∈ r.callStarts c) :
    (∀ earlier last, s.timestepPasses s.nextTime = earlier ++ [last] →
      (∀ p ∈ earlier, p.halt = none ∧ ∃ i ∈ s.changed s.nextTime p, ¬ i.Unmoved) ∧
      (last.halt = none → earlier.length + 1 < s.config.maxIterations →
        ∀ i ∈ s.changed s.nextTime last, i.Unmoved)) ∧
    (∀ p ∈ s.timestepPasses s.nextTime, p.halt = none →
      (p.after.progress.changedAtoms = 0 ↔ s.changed s.nextTime p = [])) ∧
    (s.nextTime = 0 ∨ s.config.persistent = true →
      (∀ p ∈ s.timestepPasses s.nextTime, ∀ x ∈ s.iterateAttempts s.nextTime p.iteration p.before,
        x.conflict? s.pairing = none → (∀ i ∈ x.changed s.config s.pairing, i.Unmoved) →
          x.changed s.config s.pairing = []) ∧
      ((∀ p ∈ s.timestepPasses s.nextTime, ∀ x ∈ s.iterateAttempts s.nextTime p.iteration p.before,
          x.conflict? s.pairing = none) →
        (s.withConvergence .perfect).timestepPasses s.nextTime = s.timestepPasses s.nextTime)) := by
  have hlatticed : s.Latticed :=
    kept_latticed.callStarts (kept_latticed.reachable latticed_create h) hc hs
  have hkept := kept_hasNoPast (Rule.Carries Interval.IsProper) fun f => f.bound.IsProper
  obtain ⟨hsound, hpast⟩ := hkept.callStarts
    (hkept.reachable (fun hnew => ⟨sound_create hnew, fun _ => hasNoPast_create hnew⟩) h) hc hs
  have hcriterion : s.config.convergence = .deltaBound 0 := by
    rw [(leads_of_mem_callStarts hs).config, hzero]
  refine ⟨fun earlier last heq => ?_, fun p hp => changedAtoms_eq_zero_iff hlatticed hp, fun hnone =>
    ⟨fun p hp x hx => changed_eq_nil hlatticed hsound hnone (hpast hnone) hp hx,
      timestepPasses_perfect hlatticed hcriterion hsound hnone (hpast hnone)⟩⟩
  have hmem {p : Pass} (hp : p ∈ earlier ++ [last]) : p ∈ s.timestepPasses s.nextTime := heq ▸ hp
  obtain ⟨hearlier, hlast⟩ := timestepPasses_end heq
  refine ⟨fun p hp => (goesOn_iff hlatticed hcriterion (hmem (by simp [hp]))).1 (hearlier p hp),
    fun hhalt hlimit => ?_⟩
  have hends : s.goesOn last = false := hlast.resolve_right (by omega)
  by_contra hmoved
  push Not at hmoved
  have hgoes := (goesOn_iff hlatticed hcriterion (hmem (by simp))).2 ⟨hhalt, hmoved⟩
  rw [hends] at hgoes
  cases hgoes

/-- A node is known to be `p` in two timesteps, and learns `q` from that. In the first timestep the loop
goes as far as under `perfect`. In the second one its first iteration brings `q` back to where the first
timestep has left it, and is the last. -/
theorem standstill_two_timesteps :
    let rule : Rule :=
      { Rule.simple .node "rule" ⟨"q"⟩ with delay := 0, criteria := [(⟨"p"⟩, .certain)] }
    let known : Fact := ⟨"known", .node ⟨"A"⟩, ⟨"p"⟩, .certain, 0, 1, false, false⟩
    ∃ new, create (Graph.empty.addNode ⟨"A"⟩) {}
        { Config.standard with timesteps := 1, convergence := .deltaBound 0 } = .ok new ∧
      let r := (new.calls [.addRule rule, .addFact known]).1
      r.config.convergence = .deltaBound 0 ∧
      ∃ u v, r.callStarts .reason = [u, v] ∧
        (u.timestepPasses u.nextTime).length = 2 ∧
        (u.withConvergence .perfect).timestepPasses u.nextTime = u.timestepPasses u.nextTime ∧
        ∃ last, v.timestepPasses v.nextTime = [last] ∧ last.halt = none ∧ 1 < v.config.maxIterations ∧
          v.changed v.nextTime last = [⟨1, 1, 1, 1, false⟩] ∧ last.after.progress.changedAtoms ≠ 0 ∧
          ∀ i ∈ v.changed v.nextTime last, i.Unmoved := by
  intro rule known
  refine ⟨_, rfl, ?_⟩
  intro r
  have hr : r.Reachable (Rule.Carries Interval.IsProper) fun f => f.bound.IsProper :=
    (Reachable.create (show create (Graph.empty.addNode ⟨"A"⟩) {}
      { Config.standard with timesteps := 1, convergence := .deltaBound 0 } = .ok _ from rfl)).calls
      (by simp [Call.Brings, Rule.Carries, rule, Rule.simple, known, Interval.closed_isProper.certain])
  have hview : (r.callStarts .reason).map (fun s => ((s.nextTime, s.config.maxIterations),
      (s.timestepPasses s.nextTime).map fun p => (p.halt, s.changed s.nextTime p,
        (s.iterateAttempts s.nextTime p.iteration p.before).all (·.conflict? s.pairing = none))))
      = [((0, 1000), [(none, [⟨1, 1, 0, 1, false⟩], true), (none, [], true)]),
        ((1, 1000), [(none, [⟨1, 1, 1, 1, false⟩], true)])] := by decide +kernel
  obtain ⟨u, others, hstarts, hu, hothers⟩ := List.map_eq_cons_iff.1 hview
  obtain ⟨v, rest, rfl, hv, hrest⟩ := List.map_eq_cons_iff.1 hothers
  obtain rfl := List.map_eq_nil_iff.1 hrest
  simp only [Prod.mk.injEq] at hu hv
  obtain ⟨last, rest, hlast, hview, hrest⟩ := List.map_eq_cons_iff.1 hv.2
  obtain rfl := List.map_eq_nil_iff.1 hrest
  simp only [Prod.mk.injEq] at hview
  obtain ⟨hhalt, hchanged, -⟩ := hview
  have hfree : ∀ p ∈ u.timestepPasses u.nextTime,
      ∀ x ∈ u.iterateAttempts u.nextTime p.iteration p.before, x.conflict? u.pairing = none := by
    have hall : ∀ y ∈ (u.timestepPasses u.nextTime).map fun p => (p.halt, u.changed u.nextTime p,
        (u.iterateAttempts u.nextTime p.iteration p.before).all (·.conflict? u.pairing = none)),
        y.2.2 = true := by
      rw [hu.2]
      simp
    intro p hp x hx
    exact of_decide_eq_true (List.all_eq_true.1 (hall _ (List.mem_map_of_mem hp)) x hx)
  have hzero : r.config.convergence = .deltaBound 0 := rfl
  have hlimit : 1 < v.config.maxIterations := by
    rw [hv.1.2]
    decide
  obtain ⟨-, -, hfirst⟩ := standstill (s := u) hr hzero (c := .reason) trivial (by simp [hstarts])
  obtain ⟨hend, hcount, -⟩ := standstill (s := v) hr hzero (c := .reason) trivial (by simp [hstarts])
  refine ⟨hzero, u, v, hstarts, by simpa using congrArg List.length hu.2, (hfirst (.inl hu.1.1)).2 hfree,
    last, hlast, hhalt, hlimit, hchanged, ?_, (hend [] last hlast).2 hhalt hlimit⟩
  rw [Ne, hcount last (by simp [hlast]) hhalt, hchanged]
  exact List.cons_ne_nil _ _

/-- A second rule asks for `q`. In the second timestep the loop ends before this rule has been applied, far
from its limit and with an iteration that has changed an atom. Under `perfect` it would have gone on. -/
theorem standstill_breaks_chain :
    let first : Rule :=
      { Rule.simple .node "first" ⟨"q"⟩ with delay := 0, criteria := [(⟨"p"⟩, .certain)] }
    let second : Rule :=
      { Rule.simple .node "second" ⟨"s"⟩ with delay := 0, criteria := [(⟨"q"⟩, .certain)] }
    let known : Fact := ⟨"known", .node ⟨"A"⟩, ⟨"p"⟩, .certain, 0, 1, false, false⟩
    ∃ new, create (Graph.empty.addNode ⟨"A"⟩) {}
        { Config.standard with timesteps := 1, convergence := .deltaBound 0 } = .ok new ∧
      let r := (new.calls [.addRule first, .addRule second, .addFact known]).1
      ∃ u v, r.callStarts .reason = [u, v] ∧
        (∃ last, (v.timestepPasses v.nextTime).getLast? = some last ∧ last.halt = none ∧
          (v.timestepPasses v.nextTime).length < v.config.maxIterations ∧
          last.after.progress.changedAtoms = 1) ∧
        v.exit.bound (.node ⟨"A"⟩) ⟨"s"⟩ = ⟨0, 1, 1, 1, false⟩ ∧
        (v.withConvergence .perfect).exit.bound (.node ⟨"A"⟩) ⟨"s"⟩ = ⟨1, 1, 1, 1, false⟩ := by
  intro first second known
  refine ⟨_, rfl, ?_⟩
  intro r
  have hview : (r.callStarts .reason).map (fun s => (s.config.maxIterations,
      (s.timestepPasses s.nextTime).map (fun p => (p.halt, p.after.progress.changedAtoms)),
      s.exit.bound (.node ⟨"A"⟩) ⟨"s"⟩, (s.withConvergence .perfect).exit.bound (.node ⟨"A"⟩) ⟨"s"⟩))
      = [(1000, [(none, 1), (none, 1), (none, 0)], ⟨1, 1, 0, 1, false⟩, ⟨1, 1, 0, 1, false⟩),
        (1000, [(none, 1)], ⟨0, 1, 1, 1, false⟩, ⟨1, 1, 1, 1, false⟩)] := by decide +kernel
  obtain ⟨u, others, hstarts, -, hothers⟩ := List.map_eq_cons_iff.1 hview
  obtain ⟨v, rest, rfl, hv, hrest⟩ := List.map_eq_cons_iff.1 hothers
  obtain rfl := List.map_eq_nil_iff.1 hrest
  simp only [Prod.mk.injEq] at hv
  obtain ⟨hlimit, hpasses, hexit, hperfect⟩ := hv
  obtain ⟨last, rest, hlast, hview, hrest⟩ := List.map_eq_cons_iff.1 hpasses
  obtain rfl := List.map_eq_nil_iff.1 hrest
  simp only [Prod.mk.injEq] at hview
  refine ⟨u, v, hstarts, ⟨last, by rw [hlast]; rfl, hview.1, ?_, hview.2⟩, hexit, hperfect⟩
  rw [hlast, hlimit]
  exact (by decide : 1 < 1000)

/-- In the first timestep a conflict does the same if it is resolved: its atom goes back to `[0, 1]`. -/
example :
    let rule : Rule :=
      { Rule.simple .node "rule" ⟨"p"⟩ with
        delay := 0, criteria := [(⟨"p"⟩, .certain)], head := .bound .impossible }
    let known : Fact := ⟨"known", .node ⟨"A"⟩, ⟨"p"⟩, .certain, 0, 0, false, false⟩
    let passes (c : Convergence) : Except Error (List Nat) :=
      (create (Graph.empty.addNode ⟨"A"⟩) {} { Config.standard with convergence := c }).map fun r =>
        ((r.calls [.addRule rule, .addFact known]).1.timestepPasses 0).map (·.after.progress.changedAtoms)
    passes (.deltaBound 0) = .ok [1] ∧ passes .perfect = .ok [1, 0] := by decide +kernel

end Reasoner

end AnnotatedLogic
