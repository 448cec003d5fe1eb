import AnnotatedLogic.Grounding
/-!
# The order of looking at candidates

Every result goes into the slot of its candidate, so it does not matter in which order the
candidates are looked at, nor whether one is looked at twice.

* `Filled`: which slots have their results; one candidate after the other keeps it.
* `gatherInOrder_eq`: in every order that leaves no candidate out, the results are those of looking
  at the candidates from the first to the last.
* `Rule.ground_eq`: so the groundings of a rule depend on the configuration only as far as it says
  what they record.
-/

namespace AnnotatedLogic

variable {α β : Type}

/-- The slots of the places that have been looked at hold the results there, all others hold
none. -/
def Filled (f : α → Option β) (candidates : Array α) (seen : List Nat)
    (slots : Array (Option β)) : Prop :=
  ∀ place, slots[place]? = candidates[place]?.map fun c => if place ∈ seen then f c else none

theorem filled_replicate (f : α → Option β) (candidates : Array α) :
    Filled f candidates [] (Array.replicate candidates.size none) := by
  intro place
  rw [Array.getElem?_replicate]
  by_cases h : place < candidates.size
  · rw [if_pos h, Array.getElem?_eq_getElem h]
    rfl
  · rw [if_neg h, Array.getElem?_eq_none (by omega)]
    rfl

/-- Looks at one place: the result goes into the slot of the candidate. -/
def fillSlot (f : α → Option β) (candidates : Array α) (slots : Array (Option β)) (place : Nat) :
    Array (Option β) :=
  match candidates[place]? with
  | some c => slots.setIfInBounds place (f c)
  | none => slots

/-- Looking at a place fills its slot. A place without a candidate has no slot either. -/
theorem Filled.step {f : α → Option β} {candidates : Array α} {seen : List Nat}
    {slots : Array (Option β)} (h : Filled f candidates seen slots) (place : Nat) :
    Filled f candidates (seen ++ [place]) (fillSlot f candidates slots place) := by
  intro other
  unfold fillSlot
  by_cases ho : other = place
  · subst ho
    have hother := h other
    cases hc : candidates[other]? with
    | none => simpa [hc] using hother
    | some c =>
      rw [hc] at hother
      obtain ⟨hlt, -⟩ := Array.getElem?_eq_some_iff.1 hother
      simp [hlt]
  · have hseen : other ∈ seen ++ [place] ↔ other ∈ seen := by simp [ho]
    simp only [hseen]
    cases candidates[place]? with
    | none => exact h other
    | some c =>
      dsimp only
      rw [Array.getElem?_setIfInBounds_ne (Ne.symm ho)]
      exact h other

theorem Filled.foldl {f : α → Option β} {candidates : Array α} {seen : List Nat}
    {slots : Array (Option β)} (h : Filled f candidates seen slots) (order : List Nat) :
    Filled f candidates (seen ++ order) (order.foldl (fillSlot f candidates) slots) := by
  induction order generalizing seen slots with
  | nil => simpa using h
  | cons place order ih =>
    have hrest := ih (h.step place)
    rwa [List.append_assoc, List.singleton_append] at hrest

/-- Every slot is filled: the slots are the results in the order of the candidates. -/
theorem Filled.toList_eq {f : α → Option β} {candidates : Array α} {seen : List Nat}
    {slots : Array (Option β)} (h : Filled f candidates seen slots)
    (hseen : ∀ place < candidates.size, place ∈ seen) :
    slots.toList = candidates.toList.map f := by
  apply List.ext_getElem?
  intro place
  rw [Array.getElem?_toList, List.getElem?_map, Array.getElem?_toList, h place]
  cases hc : candidates[place]? with
  | none => rfl
  | some c =>
    have hlt : place < candidates.size := by
      obtain ⟨hlt, -⟩ := Array.getElem?_eq_some_iff.1 hc
      exact hlt
    simp [hseen place hlt]

/-- In every order that leaves no candidate out, the results are in the order of the candidates. -/
theorem gatherInOrder_eq (f : α → Option β) (candidates : Array α) {order : List Nat}
    (h : ∀ place < candidates.size, place ∈ order) :
    gatherInOrder f candidates order = candidates.toList.filterMap f := by
  have hfilled := (filled_replicate f candidates).foldl order
  show (order.foldl (fillSlot f candidates) _).toList.filterMap id = _
  rw [hfilled.toList_eq (by simpa using h), List.filterMap_map]
  rfl

/-- The workers leave no candidate out. -/
theorem mem_workerOrder {workers n place : Nat} (hw : 0 < workers) (h : place < n) :
    place ∈ workerOrder workers n := by
  unfold workerOrder
  rw [List.mem_flatMap]
  refine ⟨place % workers, List.mem_range.2 (Nat.mod_lt _ hw), ?_⟩
  simp [h]

theorem workerCount_pos (threads : Option Nat) (n : Nat) : 0 < workerCount threads n := by
  unfold workerCount
  omega

theorem gather_eq_filterMap (execution : Execution) (threads : Option Nat) (f : α → Option β)
    (candidates : List α) : gather execution threads f candidates = candidates.filterMap f := by
  cases execution with
  | sequential => rfl
  | parallel =>
    unfold gather
    dsimp only
    rw [gatherInOrder_eq]
    intro place h
    exact mem_workerOrder (workerCount_pos ..) (by simpa using h)

/-- The groundings of a rule, from the first candidate to the last. -/
theorem Rule.ground_eq (r : Rule) (i : Interpretation) (config : Config) :
    r.ground i config = (r.candidates i.graph).filterMap (r.groundAt i config.atomTrace) :=
  gather_eq_filterMap ..

end AnnotatedLogic
