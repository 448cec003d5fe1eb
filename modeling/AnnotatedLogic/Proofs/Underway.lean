import AnnotatedLogic.Proofs.Attempts
import AnnotatedLogic.Proofs.Sound
/-!
# While a call is under way

What is known of the state in which a call is made is known of the states in which its timesteps start
and of those that its effects find.

* `Leads`: what a timestep has in common with the call that it belongs to. The graph may have grown.
* `leads_of_mem_callStarts`, `Sound.of_mem_callStarts`: the timesteps of a call.
* `Sound.over_of_mem_callAttempts`: the attempts of a call.
* `Has`: the interpretations that a reasoner has between two operations.
-/

namespace AnnotatedLogic

namespace Reasoner

/-- The configuration, the rules and the opposite labels are the same, and the graph has grown. -/
structure Leads (r s : Reasoner) : Prop where
  config : s.config = r.config
  rules : s.rules = r.rules
  pairing : s.pairing = r.pairing
  grows : r.interpretation.graph.Grows s.interpretation.graph

theorem Leads.trans {r s u : Reasoner} (h : r.Leads s) (h' : s.Leads u) : r.Leads u :=
  ⟨h'.config.trans h.config, h'.rules.trans h.rules, h'.pairing.trans h.pairing,
    h.grows.trans h'.grows⟩

theorem leads_next? {r s : Reasoner} {more : Nat} (h : r.next? more = some s) : r.Leads s := by
  obtain ⟨u, progress, hstep, rfl⟩ := next?_cases h
  have hsetup := sameSetup_timestep hstep
  have hgrows := r.grows_graph_timestep r.nextTime
  rw [hstep] at hgrows
  exact ⟨hsetup.config, hsetup.rules, hsetup.pairing, hgrows⟩

theorem leads_runOf? {r s : Reasoner} {c : Call} {more : Nat} (h : r.runOf? c = some (s, more)) :
    r.Leads s := by
  rw [runOf?_frame h]
  exact ⟨rfl, rfl, rfl, .refl _⟩

theorem leads_of_mem_callStarts {r s : Reasoner} {c : Call} (h : s ∈ r.callStarts c) :
    r.Leads s := by
  obtain ⟨u, more, hrun, hs⟩ := exists_run_of_mem_callStarts h
  exact runStarts_invariant (P := r.Leads) (fun hv hnext => hv.trans (leads_next? hnext))
    (leads_runOf? hrun) more s hs

theorem Sound.of_mem_callStarts {r s : Reasoner} (h : r.Sound) {c : Call}
    (hs : s ∈ r.callStarts c) : s.Sound :=
  (kept_sound (fun _ => True) fun _ => True).callStarts h c.brings_any hs

/-! ## Attempts -/

theorem keptByEffects_over (r : Reasoner) (Q : Effect → Prop) (g : Graph) :
    r.KeptByEffects Q (Work.Over g) where
  progress hw _ := ⟨hw.fits, hw.grows⟩
  perform hw _ := hw.perform _

theorem Sound.over_of_mem_attempts {r : Reasoner} (h : r.Sound) {t : Nat} {a : Attempt}
    (ha : a ∈ r.attempts t) : a.before.Over r.interpretation.graph :=
  ((r.keptByEffects_over (fun _ => True) _).timestepAttempts (h.startWork t)
    (fun _ _ => trivial) (fun _ _ => trivial) (fun _ _ _ _ => trivial) a ha).1

/-- Every effect of a call finds worlds that belong to components, over a graph that has grown since the
call was made. -/
theorem Sound.over_of_mem_callAttempts {r : Reasoner} (h : r.Sound) {c : Call} {a : Attempt}
    (ha : a ∈ r.callAttempts c) : a.before.Over r.interpretation.graph := by
  obtain ⟨s, hs, ha⟩ := exists_start_of_mem_callAttempts ha
  have hover := (h.of_mem_callStarts hs).over_of_mem_attempts ha
  exact ⟨hover.fits, (leads_of_mem_callStarts hs).grows.trans hover.grows⟩

/-- An interpretation that the reasoner has between two operations: the one it holds, and those that the
effects of a call find. -/
inductive Has (r : Reasoner) : Interpretation → Prop where
  | held : Has r r.interpretation
  | found {call : Call} {x : Attempt} (hx : x ∈ r.callAttempts call) : Has r x.before.interpretation

theorem Has.fits {r : Reasoner} {i : Interpretation} (hi : r.Has i) (h : r.Sound) : i.Fits := by
  cases hi with
  | held => exact h.fits
  | found hx => exact (h.over_of_mem_callAttempts hx).fits

end Reasoner

end AnnotatedLogic
