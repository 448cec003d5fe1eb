import AnnotatedLogic.Proofs.Movement
import AnnotatedLogic.Proofs.Queue
import AnnotatedLogic.Proofs.Underway
/-!
# Movement since the last timestep

Where values do not persist, a timestep starts with a reset, which makes the previous bounds those that
the last timestep has left. No effect changes them, so all movement within a timestep is movement since
the last one.

* `lastBound`: the interval in which the last of some timesteps has left an atom.
* `Inherits`: a reasoner starts its next timestep with what the last completed one has left.
* `Visits`: the interpretations that a timestep goes through. All of them have the previous bounds of the
  first one (`recalls_of_visits`).
* `previous_bounds`: in every run that is not stopped they are those of the last timestep, and an assertion
  measures movement by them.
-/

namespace AnnotatedLogic

namespace Reasoner

/-- The interval of an atom at the end of the last of some timesteps. Before the first one nothing is known
of it, and neither is anything known of an atom that is not there. -/
def lastBound (before : List Reasoner) (c : Component) (label : Label) : Interval :=
  match before.getLast? with
  | some u => u.exit.bound c label
  | none => .unknown

/-! ## From one timestep to the next -/

/-- The configuration is this one, and all atoms are as the last timestep has left them. -/
structure Inherits (config : Config) (before : List Reasoner) (r : Reasoner) : Prop where
  config : r.config = config
  bound : ∀ c label, r.interpretation.bound c label = lastBound before c label

theorem ledger_inherits (config : Config) : Ledger (Inherits config) where
  setup h _ _ _ := ⟨h.config, h.bound⟩
  complete {before r s progress} h hstep := by
    refine ⟨(sameSetup_timestep hstep).config.trans h.config, fun c label => ?_⟩
    have hlast : lastBound (before ++ [r]) c label = r.exit.bound c label := by
      unfold lastBound
      rw [List.getLast?_append]
      rfl
    rw [hlast, exit_of_completed hstep]
    rfl

theorem inherits_create {graph : Graph} {labelling : Labelling} {config : Config} {r : Reasoner}
    (h : create graph labelling config = .ok r) : Inherits config [] r := by
  unfold create at h
  split at h <;> cases h
  refine ⟨rfl, fun c label => ?_⟩
  show (Interpretation.ofGraph graph labelling).bound c label = .unknown
  unfold Interpretation.bound
  cases hb : (Interpretation.ofGraph graph labelling).bound? c label with
  | none => rfl
  | some b => exact Interpretation.bound?_ofGraph hb

variable {config : Config} {before : List Reasoner} {r : Reasoner}

/-- A timestep starts with the bounds of the last one as previous bounds, except for those of static
atoms. -/
theorem Inherits.startWork (h : Inherits config before r) (hpersistent : config.persistent = false)
    (htimes : before.map (·.nextTime) = List.range r.nextTime) (c : Component) (label : Label)
    (hstatic : (lastBound before c label).isStatic = false) :
    ((r.startWork r.nextTime).interpretation.bound c label).previous
      = .fresh (lastBound before c label).lower (lastBound before c label).upper := by
  have hbound := h.bound c label
  unfold Reasoner.startWork
  dsimp only
  split
  · rw [Interpretation.bound_reset, hbound, Interval.previous_reset hstatic]
  · next hfirst =>
    have hzero : r.nextTime = 0 := by
      by_contra hpos
      exact hfirst ⟨Nat.pos_of_ne_zero hpos, h.config ▸ hpersistent⟩
    rw [hzero] at htimes
    obtain rfl := List.map_eq_nil_iff.1 htimes
    rw [hbound]
    rfl

/-! ## Within a timestep -/

/-- The interpretations that the next timestep goes through: the one it starts to work on, those before and
after each of its effects, and the one it leaves. -/
inductive Visits (r : Reasoner) : Interpretation → Prop where
  | start : Visits r (r.startWork r.nextTime).interpretation
  | before {x : Attempt} (hx : x ∈ r.attempts r.nextTime) : Visits r x.before.interpretation
  | after {x : Attempt} (hx : x ∈ r.attempts r.nextTime) :
      Visits r (x.before.perform r.config r.pairing x.effect).1.interpretation
  | exit : Visits r r.exit

/-- Within a timestep the previous bounds stay what they were at its start. -/
theorem recalls_of_visits (hsound : r.Sound) {i : Interpretation} (h : r.Visits i) :
    (r.startWork r.nextTime).interpretation.Recalls i := by
  have hstart : (r.startWork r.nextTime).interpretation.Fits ∧
      (r.startWork r.nextTime).interpretation.Recalls (r.startWork r.nextTime).interpretation :=
    ⟨(hsound.startWork r.nextTime).fits, fun _ _ => rfl⟩
  have hperform {w : Work} (e : Effect) (hw : w.interpretation.Fits ∧
      (r.startWork r.nextTime).interpretation.Recalls w.interpretation) :
      (w.perform r.config r.pairing e).1.interpretation.Fits ∧
        (r.startWork r.nextTime).interpretation.Recalls
          (w.perform r.config r.pairing e).1.interpretation :=
    ⟨(Work.Over.perform ⟨hw.1, .refl _⟩ e).fits,
      hw.2.trans (w.perform_recalls r.config r.pairing hw.1 e)⟩
  have hkept : r.KeptByEffects (fun _ => True) fun w => w.interpretation.Fits ∧
      (r.startWork r.nextTime).interpretation.Recalls w.interpretation :=
    { progress := fun hw _ => hw
      perform := fun hw _ => hperform _ hw }
  have hattempt {x : Attempt} (hx : x ∈ r.attempts r.nextTime) :=
    (hkept.timestepAttempts hstart (fun _ _ => trivial) (fun _ _ => trivial)
      (fun _ _ _ _ => trivial) x hx).1
  cases h with
  | start => exact hstart.2
  | before hx => exact (hattempt hx).2
  | after hx => exact (hperform _ (hattempt hx)).2
  | exit =>
    obtain ⟨-, hlast⟩ := timestep_invariant (r := r) (t := r.nextTime)
      (P := fun _ i _ => i.Fits ∧ (r.startWork r.nextTime).interpretation.Recalls i)
      (fun _ w hw => hperform (w := w) _ hw) (fun hw => hw) hstart
    exact hlast.2

/-- Throughout a timestep the previous bounds of an atom are those that the last one has left it with. -/
theorem Inherits.previous (h : Inherits config before r) (hpersistent : config.persistent = false)
    (htimes : before.map (·.nextTime) = List.range r.nextTime) (hsound : r.Sound) {i : Interpretation}
    (hi : r.Visits i) (c : Component) (label : Label)
    (hstatic : (lastBound before c label).isStatic = false) :
    (i.bound c label).previous
      = .fresh (lastBound before c label).lower (lastBound before c label).upper :=
  (recalls_of_visits hsound hi c label).trans (h.startWork hpersistent htimes c label hstatic)

/-- What an assertion leads to is one of the interpretations that the timestep goes through. -/
theorem visits_assert {x : Attempt} (hx : x ∈ r.attempts r.nextTime) {a : Assertion}
    (ha : x.effect = .assert a) {response : Response}
    (h : x.before.interpretation.assert r.config r.pairing a = .ok response) :
    r.Visits response.interpretation := by
  have hafter : (x.before.perform r.config r.pairing x.effect).1.interpretation
      = response.interpretation := by
    rw [ha, Work.interpretation_perform h]
  exact hafter ▸ .after hx

/-- Throughout a timestep the stored values are in the lattice. -/
theorem Latticed.visits (h : r.Latticed) {i : Interpretation} (hi : r.Visits i) :
    i.All Interval.InLattice := by
  cases hi with
  | start => exact (h.startWork r.nextTime).stored
  | before hx => exact (h.of_mem_attempts hx).stored
  | after hx =>
    exact (Work.perform_latticed r.config r.pairing (h.attempts hx).2 (h.attempts hx).1).stored
  | exit => exact (h.timestep r.nextTime).latticed.stored

/-! ## Runs that are not stopped -/

/-- However calls are made of a new reasoner whose values do not persist, as long as no answer tells of a
conflict: throughout each timestep the previous bounds of an atom are those that the timestep before has
left it with, unless it has left it static; they are `[0, 1]` if there was no such timestep or no such
atom. An assertion of the timestep that changes only atoms of this kind measures by `deltaBound` how far
the bounds of the atoms that it changes are then from those: the largest of these distances, and zero if
it changes none. -/
theorem previous_bounds {graph : Graph} {labelling : Labelling} {config : Config} {r : Reasoner}
    (hr : create graph labelling config = .ok r) (hpersistent : config.persistent = false)
    {cs : List Call} (hhalted : ∀ answer ∈ (r.calls cs).2, reported? answer = none)
    {earlier later : List Reasoner} {s : Reasoner} (hs : r.callsStarts cs = earlier ++ s :: later) :
    earlier.map (·.nextTime) = List.range s.nextTime ∧
    (∀ i, s.Visits i → ∀ c label b, i.bound? c label = some b →
      (lastBound earlier c label).isStatic = false →
        b.previous = .fresh (lastBound earlier c label).lower (lastBound earlier c label).upper) ∧
    ∀ x ∈ s.attempts s.nextTime, ∀ a, x.effect = .assert a → ∀ response,
      x.before.interpretation.assert s.config s.pairing a = .ok response →
      (∀ label ∈ x.before.interpretation.altered s.config s.pairing a,
        (lastBound earlier a.component label).isStatic = false) →
      let moved := (x.before.interpretation.altered s.config s.pairing a).map fun label =>
        (response.interpretation.bound a.component label).distance (lastBound earlier a.component label)
      ∀ threshold, response.outcome.delta (.deltaBound threshold) = moved.foldl Degree.larger 0 ∧
        ((∀ c ∈ cs, c.Brings (Rule.Carries Interval.IsProper) fun f => f.bound.IsProper) →
          (∀ d ∈ moved, d ≤ response.outcome.delta (.deltaBound threshold)) ∧
          (moved ≠ [] → response.outcome.delta (.deltaBound threshold) ∈ moved)) := by
  have hsound : r.Sound := sound_create hr
  have htimes := ((accounts_create hr).callsStarts hsound hhalted hs).times
  have hinherits := (ledger_inherits config).callsStarts (inherits_create hr) hsound hhalted hs
  rw [List.nil_append] at htimes hinherits
  have hstart : s ∈ r.callsStarts cs := hs ▸ List.mem_append_right _ (List.mem_cons_self ..)
  have hsound' : s.Sound := (kept_sound (fun _ => True) fun _ => True).callsStarts hsound
    (fun c _ => c.brings_any) s hstart
  have hprevious {i : Interpretation} (hi : s.Visits i) :=
    hinherits.previous hpersistent htimes hsound' hi
  refine ⟨htimes, fun i hi c label b hb hstatic => ?_, fun x hx a ha response hresponse hloose => ?_⟩
  · rw [← Interpretation.bound_of_bound? hb]
    exact hprevious hi c label hstatic
  · have hvisits := visits_assert hx ha hresponse
    intro moved threshold
    have hdelta : response.outcome.delta (.deltaBound threshold) = moved.foldl Degree.larger 0 := by
      have hmoved : (x.before.interpretation.altered s.config s.pairing a).map (fun label =>
          (response.interpretation.bound a.component label).movement) = moved :=
        List.map_congr_left fun label hlabel => by
          unfold Interval.movement
          rw [hprevious hvisits a.component label (hloose label hlabel)]
          rfl
      rw [← hmoved]
      exact (Interpretation.assert_movement hresponse).2
    refine ⟨hdelta, fun hproper => ?_⟩
    rw [hdelta]
    refine Degree.foldl_larger_greatest fun d hd => ?_
    obtain ⟨label, hlabel, rfl⟩ := List.mem_map.1 hd
    have hlatticed := kept_latticed.callsStarts (latticed_create hr) hproper s hstart
    have hbound := (hlatticed.visits hvisits).bound Interval.closed_inLattice a.component label
    exact Interval.inUnit_distance hbound.1
      (hbound.proper_of_previous (hprevious hvisits a.component label (hloose label hlabel)))

/-- A fact gives `p` the bounds `[0.5, 1]` in the first timestep, another one `[0.75, 1]` in the second. In
the second timestep the previous bounds are `[0.5, 1]` throughout, and the movement of the only assertion is
measured from them, although it starts from `[0, 1]`. -/
theorem previous_bounds_two_facts :
    let a : Component := .node ⟨"a"⟩
    let fact (t : Nat) (lower : Degree) : Fact := ⟨"f", a, ⟨"p"⟩, .fresh lower 1, t, t, false, false⟩
    let cs : List Call := [.addFact (fact 0 0.5), .addFact (fact 1 0.75), .reason]
    ∃ new, create (Graph.empty.addNode ⟨"a"⟩) {} { Config.standard with timesteps := 1 } = .ok new ∧
      let answers := (new.calls cs).2
      let starts := new.callsStarts cs
      (∀ answer ∈ answers, reported? answer = none) ∧
      ∃ u s : Reasoner, starts = [u, s] ∧ s.nextTime = 1 ∧
        (s.exit.bound a ⟨"p"⟩).lower = 0.75 ∧
        (∀ i, s.Visits i → ∀ b, i.bound? a ⟨"p"⟩ = some b → b.previous = .fresh 0.5 1) ∧
        (s.attempts s.nextTime).length = 1 ∧
        ∀ x ∈ s.attempts s.nextTime, ∀ assertion, x.effect = .assert assertion → ∀ response,
          x.before.interpretation.assert s.config s.pairing assertion = .ok response →
          assertion.component = a →
          x.before.interpretation.altered s.config s.pairing assertion = [⟨"p"⟩] →
          response.outcome.delta (.deltaBound 0)
            = (response.interpretation.bound a ⟨"p"⟩).distance (.fresh 0.5 1) := by
  intro a fact cs
  refine ⟨_, rfl, ?_⟩
  intro answers starts
  have hhalted : ∀ answer ∈ answers, reported? answer = none := by decide +kernel
  have hview : starts.map (fun s => (s.nextTime, (s.attempts s.nextTime).length, s.exit.bound a ⟨"p"⟩))
      = [(0, 1, ⟨0.5, 1, 0, 1, false⟩), (1, 1, ⟨0.75, 1, 0.5, 1, false⟩)] := by decide +kernel
  obtain ⟨u, others, hstarts, hu, hothers⟩ := List.map_eq_cons_iff.1 hview
  obtain ⟨s, rest, rfl, hs, hrest⟩ := List.map_eq_cons_iff.1 hothers
  obtain rfl := List.map_eq_nil_iff.1 hrest
  simp only [Prod.mk.injEq] at hu hs
  have hfirst : (fact 0 0.5).bound.IsProper := (by decide +kernel : Interval.Proper 0.5 1)
  have hsecond : (fact 1 0.75).bound.IsProper := (by decide +kernel : Interval.Proper 0.75 1)
  have hproper : ∀ c ∈ cs, c.Brings (Rule.Carries Interval.IsProper) fun f => f.bound.IsProper := by
    simp [cs, Call.Brings, hfirst, hsecond]
  have hlast : lastBound [u] a ⟨"p"⟩ = ⟨0.5, 1, 0, 1, false⟩ := hu.2.2
  have hnew : create (Graph.empty.addNode ⟨"a"⟩) {} { Config.standard with timesteps := 1 } = .ok _ := rfl
  obtain ⟨-, hprevious, hdelta⟩ := previous_bounds hnew rfl hhalted
    (show starts = [u] ++ s :: [] from hstarts)
  refine ⟨hhalted, u, s, hstarts, hs.1, by rw [hs.2.2], fun i hi b hb => ?_, hs.2.1, ?_⟩
  · have hb := hprevious i hi a ⟨"p"⟩ b hb (by rw [hlast])
    rwa [hlast] at hb
  · intro x hx assertion hx' response hresponse hcomponent haltered
    obtain ⟨-, hmax⟩ := hdelta x hx assertion hx' response hresponse
      (by rw [haltered, hcomponent]; simp [hlast]) 0
    obtain ⟨-, hmem⟩ := hmax hproper
    rw [haltered, hcomponent] at hmem
    have hdistance := List.mem_singleton.1 (hmem (List.cons_ne_nil _ _))
    rw [hdistance]
    show Interval.distance _ (lastBound [u] a ⟨"p"⟩) = _
    rw [hlast]
    rfl

end Reasoner

end AnnotatedLogic
