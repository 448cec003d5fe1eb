import AnnotatedLogic.Proofs.Queue
import Mathlib.Data.List.Forall2
/-!
# Rules known by their places

A firing to come carries its rule. The queue may as well keep the place of the rule among the rules:
rules are only entered behind the others, so a place that was noted down stays in range and leads to the
same rule, however much later the firing is due.

* `Slot`: a firing whose rule is known by its place; `Slot.Names` says for which firing it stands.
* `Queued`: the slots of a queue that is kept in this way through all that a reasoner is asked.
* `Queued.names`: the slots stand for the firings to come, one by one.
-/

namespace AnnotatedLogic

/-- A grounding of a delayed rule that waits for its timestep. The rule is known by its place. -/
structure Slot where
  due : Nat
  place : Nat
  grounding : Grounding

/-- With these rules, the slot stands for the firing. -/
structure Slot.Names (rules : List Rule) (s : Slot) (f : Firing) : Prop where
  due : s.due = f.due
  rule : rules[s.place]? = some f.rule
  grounding : s.grounding = f.grounding

namespace Slot.Names

variable {rules others : List Rule} {s : Slot} {f : Firing}

theorem place_lt (h : s.Names rules f) : s.place < rules.length :=
  (List.getElem?_eq_some_iff.1 h.rule).1

/-- Rules that come behind the others change no place. -/
theorem of_prefix (h : s.Names rules f) (hrules : rules <+: others) : s.Names others f := by
  obtain ⟨added, rfl⟩ := hrules
  exact ⟨h.due, (List.getElem?_append_left h.place_lt).trans h.rule, h.grounding⟩

end Slot.Names

namespace Reasoner

variable {r : Reasoner} {t : Nat} {slots : List Slot}

/-- The firings of the rules with a delay, with the places of the rules. -/
def delayedSlots (r : Reasoner) (t : Nat) (i : Interpretation) : List Slot :=
  (r.rules.zipIdx.filter fun x => x.1.delay != 0).flatMap fun x =>
    (x.1.ground i r.config).map fun g => ⟨t + x.1.delay, x.2, g⟩

/-- The slots after the next timestep: all of them if it stops at a fact, else those that were not due
and, if it is completed, those that it schedules. -/
def slotsAfter (r : Reasoner) (slots : List Slot) : List Slot :=
  match (r.startWork r.nextTime).performAll r.config r.pairing (r.factEffects r.nextTime) with
  | (_, some _) => slots
  | (_, none) =>
    let rest := slots.filter (·.due != r.nextTime)
    match r.timestep r.nextTime with
    | (_, .error _) => rest
    | (s, .ok _) => rest ++ r.delayedSlots r.nextTime s.interpretation

/-- The slots of a queue that knows rules by their places, after all that a new reasoner has been
asked. -/
inductive Queued : Reasoner → List Slot → Prop where
  | create {graph : Graph} {labelling : Labelling} {config : Config} {r : Reasoner}
      (h : create graph labelling config = .ok r) : Queued r []
  | timestep {r : Reasoner} {slots : List Slot} (h : Queued r slots) :
      Queued (r.timestep r.nextTime).1 (r.slotsAfter slots)
  | complete {r s : Reasoner} {slots : List Slot} {progress : Progress} (h : Queued r slots)
      (hs : r.timestep r.nextTime = (s, .ok progress)) :
      Queued (s.complete r.nextTime) (r.slotsAfter slots)
  | addRule {r : Reasoner} {slots : List Slot} (h : Queued r slots) (rule : Rule) :
      Queued { r with rules := r.rules ++ [rule] } slots
  | addFact {r : Reasoner} {slots : List Slot} (h : Queued r slots) (fact : Fact) :
      Queued { r with facts := r.facts ++ [fact] } slots
  | setPairing {r : Reasoner} {slots : List Slot} (h : Queued r slots) (pairing : Pairing) :
      Queued (r.setPairing pairing) slots

/-- Whatever a reasoner has been asked, it has such a queue. -/
theorem kept_queued (rules : Rule → Prop) (facts : Fact → Prop) :
    Kept rules facts fun r => ∃ slots, r.Queued slots where
  timestep := fun ⟨_, h⟩ => ⟨_, h.timestep⟩
  complete := fun ⟨_, h⟩ hs => ⟨_, h.complete hs⟩
  addRule := fun ⟨_, h⟩ _ _ => ⟨_, h.addRule _⟩
  addFact := fun ⟨_, h⟩ _ _ _ => ⟨_, h.addFact _⟩
  setPairing := fun ⟨_, h⟩ pairing => ⟨_, h.setPairing pairing⟩

/-! ## What the slots stand for -/

/-- The slots that a timestep schedules stand for the firings that it schedules. -/
theorem names_delayedSlots (r : Reasoner) (t : Nat) (i : Interpretation) :
    List.Forall₂ (Slot.Names r.rules) (r.delayedSlots t i) (r.delayedFirings t i) := by
  -- Both go through the rules with their places; the firings do not look at the places.
  have hfirings : r.delayedFirings t i =
      (r.rules.zipIdx.filter fun x => x.1.delay != 0).flatMap fun x =>
        (x.1.ground i r.config).map fun g => ⟨t + x.1.delay, x.1, g⟩ := by
    unfold delayedFirings
    conv_lhs => rw [← List.zipIdx_map_fst 0 r.rules]
    rw [List.filter_map, List.flatMap_map]
    rfl
  have hplaces : ∀ x ∈ r.rules.zipIdx.filter (fun x => x.1.delay != 0), r.rules[x.2]? = some x.1 :=
    fun x hx => List.mem_zipIdx_iff_getElem?.1 (List.mem_filter.1 hx).1
  rw [hfirings]
  unfold delayedSlots
  generalize r.rules.zipIdx.filter (fun x => x.1.delay != 0) = numbered at hplaces
  induction numbered with
  | nil => exact .nil
  | cons x numbered ih =>
    rw [List.flatMap_cons, List.flatMap_cons]
    refine List.rel_append ?_ (ih fun y hy => hplaces y (by simp [hy]))
    rw [List.forall₂_map_left_iff, List.forall₂_map_right_iff]
    exact List.forall₂_same.2 fun g _ => ⟨rfl, hplaces x (by simp), rfl⟩

/-- Slots that are over stand for firings that are over. -/
theorem names_filter {rules : List Rule} {firings : List Firing}
    (h : List.Forall₂ (Slot.Names rules) slots firings) (t : Nat) :
    List.Forall₂ (Slot.Names rules) (slots.filter (·.due != t)) (firings.filter (·.due != t)) := by
  refine List.rel_filter (fun s f hnames => ?_) h
  show (s.due != t) = true ↔ (f.due != t) = true
  rw [hnames.due]

theorem names_timestep (h : List.Forall₂ (Slot.Names r.rules) slots r.pending) :
    List.Forall₂ (Slot.Names (r.timestep r.nextTime).1.rules) (r.slotsAfter slots)
      (r.timestep r.nextTime).1.pending := by
  have hrest := names_filter h r.nextTime
  have hpassage := r.timestep_passage r.nextTime
  unfold slotsAfter
  generalize r.timestep r.nextTime = result at hpassage
  cases hpassage with
  | facts hfacts =>
    rw [hfacts]
    exact h
  | due hfacts | loop hfacts =>
    rw [hfacts]
    exact hrest
  | completed hfacts =>
    rw [hfacts]
    exact List.rel_append hrest (r.names_delayedSlots r.nextTime _)

/-- The slots stand for the firings to come, one by one and in their order. -/
theorem Queued.names (h : r.Queued slots) :
    List.Forall₂ (Slot.Names r.rules) slots r.pending := by
  induction h with
  | create hnew =>
    unfold Reasoner.create at hnew
    split at hnew <;> cases hnew
    exact .nil
  | timestep _ ih => exact names_timestep ih
  | complete _ hs ih =>
    have hstep := names_timestep ih
    rw [hs] at hstep
    exact hstep
  | addRule _ rule ih => exact ih.imp fun _ _ hnames => hnames.of_prefix (List.prefix_append _ _)
  | addFact _ _ ih => exact ih
  | setPairing _ _ ih => exact ih

/-- Rules are entered behind those that are there. -/
theorem rules_calls_prefix (r : Reasoner) (cs : List Call) : r.rules <+: (r.calls cs).1.rules := by
  have hkept : Kept (fun _ => True) (fun _ => True) (fun s => r.rules <+: s.rules) :=
    { timestep := fun h => by
        rw [timestep_frame]
        exact h
      complete := fun {s u _} h hs => by
        show r.rules <+: u.rules
        rw [(sameSetup_timestep hs).rules]
        exact h
      addRule := fun h _ _ => h.trans (List.prefix_append _ _)
      addFact := fun h _ _ _ => h
      setPairing := fun h _ => h }
  exact hkept.calls (List.prefix_refl _) fun c _ => c.brings_any

/-- No place is out of range, and no later call makes it lead to another rule. -/
theorem Queued.names_calls (h : r.Queued slots) (later : List Call) :
    List.Forall₂ (Slot.Names (r.calls later).1.rules) slots r.pending :=
  h.names.imp fun _ _ hnames => hnames.of_prefix (r.rules_calls_prefix later)

theorem Queued.place_lt (h : r.Queued slots) : ∀ s ∈ slots, s.place < r.rules.length := by
  have hnames := h.names
  clear h
  generalize r.pending = pending at hnames
  induction hnames with
  | nil => simp
  | cons hfirst _ ih =>
    intro s hs
    rcases List.mem_cons.1 hs with rfl | hs
    · exact hfirst.place_lt
    · exact ih s hs

end Reasoner

end AnnotatedLogic
