import AnnotatedLogic.Proofs.Degree.Complement
import AnnotatedLogic.Proofs.Listing
import AnnotatedLogic.Proofs.Underway
/-!
# The lattice of truth values

Every truth value is an interval `0 ≤ lower ≤ upper ≤ 1`, and so are the bounds that it had before the
last reset. A bound that is given has to be such an interval; whatever is computed from there on lands
back in the lattice.

* `Interval.IsProper`, `Interval.InLattice`: the bounds, and the previous ones as well.
* `closed_isProper`, `closed_inLattice`: the operations on intervals keep both. A meet takes the previous
  bounds of the atom that learns, so the other interval need only be proper.
* `World.Edits.inLattice`, `Work.perform_latticed`: edits and effects keep the stored values in the
  lattice, and what they record is in it.
* `Latticed`: the state of a reasoner. Every call keeps it (`kept_latticed`).
* `truth_values_in_lattice`: all of it, of every state that calls lead to.
-/

namespace AnnotatedLogic

namespace Degree

/-! ## Degrees in `[0, 1]` -/

theorem inUnit_clamp (x : Degree) : x.clamp.inUnit = true := by
  unfold clamp
  split
  · decide
  · next hx =>
    have hx : IsNumber x := Bool.eq_false_iff.2 hx
    split
    · decide
    · next hlow =>
      split
      · decide
      · next hup =>
        have hzero : IsNumber (0 : Degree) := by decide
        have hone : IsNumber (1 : Degree) := by decide
        unfold inUnit
        rw [Bool.and_eq_true, decide_eq_true_iff, decide_eq_true_iff, le_iff, le_iff]
        exact ⟨⟨hzero, hx, not_lt.1 fun h => hlow (lt_iff.2 ⟨hx, hzero, h⟩)⟩,
          hx, hone, not_lt.1 fun h => hup (lt_iff.2 ⟨hone, hx, h⟩)⟩

theorem inUnit_larger {x y : Degree} (hx : x.inUnit = true) (hy : y.inUnit = true) :
    (x.larger y).inUnit = true := by
  unfold larger
  split
  · exact hx
  · split
    · exact hx
    · exact hy

theorem inUnit_smaller {x y : Degree} (hx : x.inUnit = true) (hy : y.inUnit = true) :
    (x.smaller y).inUnit = true := by
  unfold smaller
  split
  · exact hx
  · split
    · exact hx
    · exact hy

end Degree

namespace Interval

open Degree

/-! ## Intervals of the lattice -/

/-- The bounds are those of a truth value. -/
def IsProper (i : Interval) : Prop := Proper i.lower i.upper

instance (i : Interval) : Decidable i.IsProper := inferInstanceAs (Decidable (Proper _ _))

/-- The bounds are those of a truth value, and so are the previous ones. -/
def InLattice (i : Interval) : Prop := i.IsProper ∧ Proper i.prevLower i.prevUpper

instance (i : Interval) : Decidable i.InLattice := inferInstanceAs (Decidable (_ ∧ _))

theorem clamped_cases (l u : Degree) :
    clamped l u = fresh l.clamp u.clamp ∨ clamped l u = fresh u.clamp l.clamp := by
  unfold clamped
  dsimp only
  split
  · exact .inl rfl
  · exact .inr rfl

theorem proper_clamped (l u : Degree) : (clamped l u).IsProper := by
  have hordered := ordered_clamped l u
  rcases clamped_cases l u with h | h <;> rw [h] at hordered ⊢
  · exact ⟨inUnit_clamp l, inUnit_clamp u, hordered⟩
  · exact ⟨inUnit_clamp u, inUnit_clamp l, hordered⟩

/-- The complement of a truth value is one. -/
theorem Proper.complement {l u : Degree} (h : Proper l u) : Proper (1 - u) (1 - l) := by
  obtain ⟨hl, hu, hlt⟩ := h
  have hnl := isNumber_of_inUnit hl
  have hnu := isNumber_of_inUnit hu
  have hle : l ≤ u := le_iff.2 ⟨hnl, hnu, not_lt.1 fun h => hlt (lt_iff.2 ⟨hnu, hnl, h⟩)⟩
  refine ⟨inUnit_one_sub hu, inUnit_one_sub hl, fun h => ?_⟩
  exact absurd (lt_iff.1 h).2.2 (not_lt.2 (le_iff.1 (one_sub_le_one_sub hl hu hle)).2.2)

theorem IsProper.meet {i j : Interval} (hi : i.IsProper) (hj : j.IsProper) :
    (i.meet j).IsProper := by
  unfold Interval.meet
  dsimp only
  split
  · exact (by decide : Proper 0 1)
  · next h => exact ⟨inUnit_larger hi.1 hj.1, inUnit_smaller hi.2.1 hj.2.1, h⟩

theorem meet_previous (i j : Interval) :
    (i.meet j).prevLower = i.prevLower ∧ (i.meet j).prevUpper = i.prevUpper := by
  unfold Interval.meet
  dsimp only
  split <;> exact ⟨rfl, rfl⟩

/-- A meet keeps the previous bounds of the first interval. -/
theorem InLattice.meet {i j : Interval} (hi : i.InLattice) (hj : j.IsProper) :
    (i.meet j).InLattice := by
  obtain ⟨hlower, hupper⟩ := meet_previous i j
  refine ⟨hi.1.meet hj, ?_⟩
  rw [hlower, hupper]
  exact hi.2

theorem InLattice.reset {i : Interval} (hi : i.InLattice) : i.reset.InLattice := by
  unfold Interval.reset
  split
  · exact hi
  · exact ⟨(by decide : Proper 0 1), hi.1⟩

theorem closed_isProper : Closed IsProper where
  unknown := by decide
  certain := by decide
  clamped := proper_clamped
  withBounds _ hj := hj
  withStatic _ hi := hi
  reset {i} hi := by
    unfold Interval.reset
    split
    · exact hi
    · exact (by decide : Proper 0 1)
  meet hi hj := hi.meet hj
  complement hi := Proper.complement hi

theorem inLattice_fresh {l u : Degree} (h : Proper l u) : (fresh l u).InLattice := ⟨h, h⟩

/-- What `closed?` accepts is in the lattice. -/
theorem inLattice_of_closed? {l u : Degree} {i : Interval} (h : closed? l u = some i) :
    i.InLattice := by
  unfold closed? at h
  split at h
  · next hproper =>
    cases h
    exact inLattice_fresh hproper
  · cases h

theorem inLattice_clamped (l u : Degree) : (clamped l u).InLattice := by
  have hproper := proper_clamped l u
  rcases clamped_cases l u with h | h <;> rw [h] at hproper ⊢ <;> exact inLattice_fresh hproper

theorem closed_inLattice : Closed InLattice where
  unknown := by decide
  certain := by decide
  clamped := inLattice_clamped
  withBounds hi hj := ⟨hj.1, hi.2⟩
  withStatic _ hi := hi
  reset hi := hi.reset
  meet hi hj := hi.meet hj.1
  complement hi := inLattice_fresh (Proper.complement hi.1)

end Interval

open AnnotatedLogic.Interval

/-! ## Edits and effects -/

/-- Edits with proper bounds keep what is stored in the lattice, and the changes that they record are
from and to intervals of the lattice. -/
theorem World.Edits.inLattice {w v : World} {changes : List Change}
    (h : Edits IsProper w changes v) (hw : w.All InLattice) :
    v.All InLattice ∧ ∀ c ∈ changes, c.old.InLattice ∧ c.new.InLattice := by
  have happend {changes : List Change} {c : Change}
      (hall : ∀ c ∈ changes, c.old.InLattice ∧ c.new.InLattice)
      (hc : c.old.InLattice ∧ c.new.InLattice) :
      ∀ d ∈ changes ++ [c], d.old.InLattice ∧ d.new.InLattice := by
    intro d hd
    rcases List.mem_append.1 hd with hd | hd
    · exact hall d hd
    · exact List.mem_singleton.1 hd ▸ hc
  induction h with
  | refl => exact ⟨hw, by simp⟩
  | addLabel _ label ih => exact ⟨(Edits.refl.addLabel label).all closed_inLattice ih.1, ih.2⟩
  | setStatic _ label isStatic ih =>
    exact ⟨(Edits.refl.setStatic label isStatic).all closed_inLattice ih.1, ih.2⟩
  | @learn _ v _ label b old new hb hnew cause ih =>
    obtain ⟨rfl, rfl, -, -⟩ := preview_changed hnew
    have hbound := ih.1.bound closed_inLattice label
    exact ⟨ih.1.put (hbound.meet hb), happend ih.2 ⟨hbound, hbound.meet hb⟩⟩
  | @rewrite _ v _ label b hb _ ih =>
    have hbound := ih.1.bound closed_inLattice label
    exact ⟨ih.1.put ⟨hb, hbound.2⟩, ih.2⟩
  | @overwrite _ v _ label b new hb hnew cause consistent ih =>
    have hbound := ih.1.bound closed_inLattice label
    have hwritten : ((v.bound label).withBounds b.lower b.upper).InLattice := ⟨hb, hbound.2⟩
    refine ⟨ih.1.put hwritten, happend ih.2 ⟨hbound, ?_⟩⟩
    rcases hnew with rfl | ⟨-, rfl⟩
    · exact hwritten
    · exact closed_inLattice.unknown

/-- The stored values are in the lattice, and so are the old and the new interval of every change that
was traced. -/
structure Interpretation.Latticed (i : Interpretation) (trace : Trace) : Prop where
  stored : i.All InLattice
  traced : ∀ e ∈ trace, e.old.InLattice ∧ e.new.InLattice

/-- Every effect that asserts a proper bound keeps values and trace in the lattice, whatever it runs into
and whatever the policy makes of it. -/
theorem Work.perform_latticed (config : Config) (pairing : Pairing) {w : Work} {e : Effect}
    (he : e.Carries IsProper) (hw : w.interpretation.Latticed w.trace) :
    (w.perform config pairing e).1.interpretation.Latticed (w.perform config pairing e).1.trace := by
  rcases w.perform_cases config pairing e with
    ⟨edge, j, -, hadd, hi, htrace⟩ | ⟨a, v, rfl, hv, hi, htrace⟩ | ⟨hi, htrace⟩
  · rw [hi, htrace]
    exact ⟨hw.stored.addEdge closed_inLattice hadd, hw.traced⟩
  · have hworld := hw.stored a.component v hv
    obtain ⟨u, changes, message, hedits, hafter, -, -, hentries⟩ :=
      Interpretation.assertOn_edits closed_isProper config pairing hv
        (fun label i hl => (hworld label i hl).1) he
    obtain ⟨hstored, hrecorded⟩ := hedits.inLattice hworld
    rw [hi, htrace, hafter, Interpretation.foldl_log, hentries]
    refine ⟨hw.stored.putWorld hstored a.component, fun entry hentry => ?_⟩
    rw [← Array.mem_toList_iff, Array.toList_appendList, List.mem_append] at hentry
    rcases hentry with hentry | hentry
    · exact hw.traced entry (Array.mem_toList_iff.1 hentry)
    · split at hentry
      · obtain ⟨change, hchange, rfl⟩ := List.mem_map.1 hentry
        exact hrecorded change hchange
      · cases hentry
  · rw [hi, htrace]
    exact hw

namespace Reasoner

/-! ## States and calls -/

/-- Values, trace and history are in the lattice, and the bounds that are given are proper. -/
structure Latticed (r : Reasoner) : Prop where
  carries : r.Carries IsProper
  latticed : r.interpretation.Latticed r.trace
  history : ∀ s ∈ r.history, ∀ a ∈ s.atoms, a.bound.InLattice

variable {r : Reasoner}

theorem Latticed.startWork (h : r.Latticed) (t : Nat) :
    (r.startWork t).interpretation.Latticed (r.startWork t).trace := by
  refine ⟨?_, h.latticed.traced⟩
  unfold Reasoner.startWork
  dsimp only
  split
  · exact h.latticed.stored.reset closed_inLattice
  · exact h.latticed.stored

theorem Latticed.timestep (h : r.Latticed) (t : Nat) : (r.timestep t).1.Latticed := by
  obtain ⟨-, hlatticed⟩ :=
    timestep_invariant (r := r) (t := t) (P := fun _ i trace => i.Latticed trace)
      (fun he _ hw => Work.perform_latticed r.config r.pairing (h.carries.performs closed_isProper he) hw)
      (fun hw => hw) (h.startWork t)
  have hhistory : (r.timestep t).1.history = r.history := by rw [timestep_frame]
  exact ⟨h.carries.timestep closed_isProper t, hlatticed, hhistory ▸ h.history⟩

theorem kept_latticed :
    Kept (Rule.Carries IsProper) (fun f => f.bound.IsProper) Latticed where
  timestep h := h.timestep _
  complete {r s _} h hs := by
    have hstep := h.timestep r.nextTime
    have hcarries := (kept_carries closed_isProper).complete h.carries hs
    rw [hs] at hstep
    refine ⟨hcarries, hstep.latticed, ?_⟩
    unfold complete
    dsimp only
    split
    · intro snapshot hsnapshot a ha
      rcases Array.mem_push.1 hsnapshot with hold | rfl
      · exact hstep.history snapshot hold a ha
      · exact hstep.latticed.stored.bound? (hstep.carries.fits.mem_atoms_iff.1 ha)
    · exact hstep.history
  addRule h hrule hv :=
    ⟨(kept_carries closed_isProper).addRule h.carries hrule hv, h.latticed, h.history⟩
  addFact h hfact steps hv :=
    ⟨(kept_carries closed_isProper).addFact h.carries hfact steps hv, h.latticed, h.history⟩
  setPairing h pairing :=
    ⟨(kept_carries closed_isProper).setPairing h.carries pairing, h.latticed, h.history⟩

theorem latticed_create {graph : Graph} {labelling : Labelling} {config : Config}
    (h : create graph labelling config = .ok r) : r.Latticed := by
  have hcarries := carries_create closed_isProper h
  unfold create at h
  split at h <;> cases h
  exact ⟨hcarries, ⟨Interpretation.all_ofGraph closed_inLattice _ _, by simp⟩, by simp⟩

theorem keptByEffects_latticed (r : Reasoner) :
    r.KeptByEffects (Effect.Carries IsProper) fun w => w.interpretation.Latticed w.trace where
  progress hw _ := hw
  perform hw he := Work.perform_latticed r.config r.pairing he hw

theorem Latticed.attempts (h : r.Latticed) {t : Nat} {x : Attempt} (hx : x ∈ r.attempts t) :
    x.before.interpretation.Latticed x.before.trace ∧ x.effect.Carries IsProper := by
  have hperforms {iteration : Nat} {e : Effect} (he : r.Performs t iteration e) :
      e.Carries IsProper := h.carries.performs closed_isProper he
  exact r.keptByEffects_latticed.timestepAttempts (h.startWork t)
    (fun _ he => hperforms (performs_of_mem_factEffects he))
    (fun _ he => hperforms (performs_of_mem_dueEffects he))
    (fun hstage _ _ he => hperforms (performs_of_mem_stage hstage he)) x hx

theorem Latticed.of_mem_attempts (h : r.Latticed) {t : Nat} {x : Attempt} (hx : x ∈ r.attempts t) :
    x.before.interpretation.Latticed x.before.trace := (h.attempts hx).1

/-- `P` holds of the bound of every grounding that a rule makes of any interpretation, and of those that
wait for their timestep. -/
def Proposes (r : Reasoner) (P : Interval → Prop) : Prop :=
  (∀ rule ∈ r.rules, ∀ i config, ∀ g ∈ rule.ground i config, P g.bound) ∧
    ∀ f ∈ r.pending, P f.grounding.bound

/-- Computed bounds are made of clamped numbers, whatever the weights are. -/
theorem Carries.proposes {P : Interval → Prop} (h : r.Carries P) (hP : Interval.Given P) :
    r.Proposes P := by
  refine ⟨fun rule hrule i config g hg => ?_, h.pending⟩
  obtain ⟨findings, hbound⟩ := Rule.bound_of_mem_ground hg
  exact hbound ▸ Rule.headBound_carries hP (h.rules rule hrule) findings

/-- In every state that calls with proper bounds lead to, and whenever another such call carries out an
effect, the stored values and those in the trace are in the lattice. So are the values in the history, and
groundings and firings have proper bounds; their previous bounds are proper if those of the bounds given
are. Weights, functions, policy, fact mode and opposite labels are arbitrary. -/
theorem truth_values_in_lattice
    (h : r.Reachable (Rule.Carries IsProper) fun f => f.bound.IsProper) :
    r.interpretation.Latticed r.trace ∧
      (∀ s ∈ r.history, ∀ a ∈ s.atoms, a.bound.InLattice) ∧
      r.Proposes IsProper ∧
      (r.Reachable (Rule.Carries InLattice) (fun f => f.bound.InLattice) → r.Proposes InLattice) ∧
      ∀ c : Call, c.Brings (Rule.Carries IsProper) (fun f => f.bound.IsProper) →
        ∀ x ∈ r.callAttempts c, x.before.interpretation.Latticed x.before.trace := by
  have hlatticed : r.Latticed := kept_latticed.reachable latticed_create h
  refine ⟨hlatticed.latticed, hlatticed.history, hlatticed.carries.proposes closed_isProper.toGiven,
    fun hgiven => (hgiven.carries closed_inLattice).proposes closed_inLattice.toGiven,
    fun c hc x hx => ?_⟩
  obtain ⟨s, hs, hx⟩ := exists_start_of_mem_callAttempts hx
  exact (kept_latticed.callStarts hlatticed hc hs).of_mem_attempts hx

/-- A rule with an infinite weight and the opposite infinity as its bias sums up to no number at all. Its
bound is a truth value nevertheless, and so is what the opposite label makes of it. -/
theorem truth_values_in_lattice_infinite_weight :
    let a : Node := ⟨"A"⟩
    let b : Node := ⟨"B"⟩
    let clause : Clause := ⟨.node, ⟨"p"⟩, .certain, default⟩
    let sum : Rule :=
      { Rule.simple .node "sum" ⟨"q"⟩ with
        delay := 0, clauses := [clause], head := .computed .weightedSum,
        weights := [Float.ofBits 0x7FF0000000000000, Float.ofBits 0xFFF0000000000000] }
    let here : Fact := ⟨"here", .node b, ⟨"p"⟩, .certain, 0, 0, false, false⟩
    ∃ new, create (Graph.empty.join ⟨a, b⟩) {}
        { Config.standard with timesteps := 0, atomTrace := true, retainHistory := true } = .ok new ∧
      let r := (new.calls
        [.setPairing ⟨[(⟨"q"⟩, ⟨"n"⟩)]⟩, .addRule sum, .addFact here, .reason]).1
      r.trace.size = 3 ∧ r.history.size = 1 ∧ r.interpretation.Latticed r.trace ∧
        (∀ s ∈ r.history, ∀ x ∈ s.atoms, x.bound.InLattice) ∧
        ∃ v, r.interpretation.bound? (.node a) ⟨"n"⟩ = some v ∧ v.lower = 1 ∧ v.InLattice := by
  intro a b clause sum here
  refine ⟨_, rfl, ?_⟩
  intro r
  have hr : r.Reachable (Rule.Carries IsProper) fun f => f.bound.IsProper :=
    (Reachable.create (show create (Graph.empty.join ⟨a, b⟩) {}
      { Config.standard with timesteps := 0, atomTrace := true, retainHistory := true } = .ok _
      from rfl)).calls (by simp [Call.Brings, Rule.Carries, sum, here, closed_isProper.certain])
  obtain ⟨hlatticed, hhistory, -⟩ := truth_values_in_lattice hr
  have hbound : (r.interpretation.bound? (.node a) ⟨"n"⟩).map (·.lower) = some 1 := by
    decide +kernel
  obtain ⟨v, hv, hlower⟩ := Option.map_eq_some_iff.1 hbound
  exact ⟨by decide +kernel, by decide +kernel, hlatticed, hhistory, v, hv, hlower,
    hlatticed.stored.bound? hv⟩

end Reasoner

end AnnotatedLogic
