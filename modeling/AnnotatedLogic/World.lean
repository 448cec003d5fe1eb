import AnnotatedLogic.Interval
import AnnotatedLogic.Label
/-!
# Worlds

A world holds the truth values of one component: an interval for each label the component has. Its
entries are kept in the order of the label names, so equal worlds have equal entries.

* `get?`, `put`: the view of a world and the one way to change it; `get?_put` says what a change
  does to the view.
* `learn`: what the world knows narrows to the meet with a new bound. A bound that contradicts the
  world changes nothing; `preview` tells beforehand which case it is.
* `overwrite`: a bound is written whatever the world holds.
* `reset`: start of a timestep.
-/

namespace AnnotatedLogic

/-! ## Entries in the order of their labels -/

namespace Entries

/-- The interval of a label. -/
def find? (label : Label) : List (Label × Interval) → Option Interval
  | [] => none
  | (l, i) :: rest => if l = label then some i else find? label rest

/-- Enters an interval at its place, instead of the one that was there. -/
def put (label : Label) (value : Interval) : List (Label × Interval) → List (Label × Interval)
  | [] => [(label, value)]
  | (l, i) :: rest =>
    if label.name < l.name then (label, value) :: (l, i) :: rest
    else if l = label then (label, value) :: rest
    else (l, i) :: put label value rest

/-- The order of entries. -/
def Ascending (entries : List (Label × Interval)) : Prop :=
  entries.Pairwise fun a b => a.1.name < b.1.name

theorem find?_put_self (label : Label) (value : Interval) (entries : List (Label × Interval)) :
    find? label (put label value entries) = some value := by
  induction entries with
  | nil => simp [put, find?]
  | cons e rest ih =>
    obtain ⟨l, i⟩ := e
    rw [put]
    split
    · simp [find?]
    · split
      · simp [find?]
      · next h => simp [find?, h, ih]

theorem find?_put_of_ne {label other : Label} (h : other ≠ label) (value : Interval)
    (entries : List (Label × Interval)) :
    find? other (put label value entries) = find? other entries := by
  induction entries with
  | nil => simp [put, find?, h.symm]
  | cons e rest ih =>
    obtain ⟨l, i⟩ := e
    rw [put]
    split
    · simp [find?, h.symm]
    · split
      · next hl => subst hl; simp [find?, h.symm]
      · by_cases hl : l = other <;> simp [find?, hl, ih]

private theorem name_ne_of_ne {a b : Label} (h : a ≠ b) : a.name ≠ b.name :=
  fun hn => h (by cases a; cases b; simp_all)

theorem mem_put {label : Label} {value : Interval} {e : Label × Interval}
    {entries : List (Label × Interval)} (h : e ∈ put label value entries) :
    e = (label, value) ∨ e ∈ entries := by
  induction entries with
  | nil => simpa [put] using h
  | cons d rest ih =>
    obtain ⟨l, i⟩ := d
    rw [put] at h
    split at h
    · simpa using h
    · split at h
      · simp only [List.mem_cons] at h ⊢
        exact h.imp_right .inr
      · simp only [List.mem_cons] at h ⊢
        rcases h with rfl | h
        · exact .inr (.inl rfl)
        · exact (ih h).imp_right .inr

theorem ascending_put (label : Label) (value : Interval) {entries : List (Label × Interval)}
    (h : Ascending entries) : Ascending (put label value entries) := by
  induction entries with
  | nil => simp [put, Ascending]
  | cons d rest ih =>
    obtain ⟨l, i⟩ := d
    obtain ⟨hd, hr⟩ := List.pairwise_cons.1 h
    rw [put]
    split
    · next hlt =>
      refine List.pairwise_cons.2 ⟨fun e he => ?_, h⟩
      rcases List.mem_cons.1 he with rfl | he
      · exact hlt
      · exact String.lt_trans hlt (hd e he)
    · next hnot =>
      split
      · next hl => subst hl; exact List.pairwise_cons.2 ⟨hd, hr⟩
      · next hl =>
        refine List.pairwise_cons.2 ⟨fun e he => ?_, ih hr⟩
        rcases mem_put he with rfl | he
        · rcases Decidable.em (l.name < label.name) with hlt | hge
          · exact hlt
          · exact absurd (String.le_antisymm hnot hge) (name_ne_of_ne hl)
        · exact hd e he

end Entries

/-! ## Worlds -/

/-- The truth values of one component. -/
structure World where
  entries : List (Label × Interval)
  ascending : Entries.Ascending entries

namespace World

/-- No label at all. -/
def empty : World := ⟨[], List.Pairwise.nil⟩

instance : Inhabited World := ⟨empty⟩

/-- Two worlds with the same entries are the same. -/
theorem ext_entries {v w : World} (h : v.entries = w.entries) : v = w := by
  cases v; cases w; simp_all

instance : DecidableEq World := fun v w =>
  if h : v.entries = w.entries then isTrue (ext_entries h)
  else isFalse fun e => h (e ▸ rfl)

/-- The interval of a label, if the world has the label. -/
def get? (w : World) (label : Label) : Option Interval := Entries.find? label w.entries

/-- Gives a label an interval. -/
def put (w : World) (label : Label) (value : Interval) : World :=
  ⟨Entries.put label value w.entries, Entries.ascending_put label value w.ascending⟩

/-- A change of one label changes what the world says of this label and of no other. -/
theorem get?_put (w : World) (label other : Label) (value : Interval) :
    (w.put label value).get? other = if other = label then some value else w.get? other := by
  split
  · next h => subst h; exact Entries.find?_put_self ..
  · next h => exact Entries.find?_put_of_ne h ..

/-- How many labels the world has. -/
def size (w : World) : Nat := w.entries.length

/-- Whether the world has a label. -/
def contains (w : World) (label : Label) : Bool := (w.get? label).isSome

/-- Sees to it that the world has a label: a new one says nothing yet. -/
def addLabel (w : World) (label : Label) : World :=
  if w.contains label then w else w.put label .unknown

/-- The world in which each of these labels says nothing yet. -/
def ofLabels (labels : List Label) : World := labels.foldl addLabel empty

/-- The interval of a label; a label that the world does not have says nothing. -/
def bound (w : World) (label : Label) : Interval := (w.get? label).getD .unknown

/-- Whether the world has a label and its interval lies within a bound. -/
def satisfies (w : World) (label : Label) (bound : Interval) : Bool :=
  match w.get? label with
  | some i => decide (bound.Contains i)
  | none => false

/-- Whether the value of a label outlives timesteps. -/
def isStatic (w : World) (label : Label) : Bool :=
  match w.get? label with
  | some i => i.isStatic
  | none => false

/-- What becomes of a label when it learns a bound. -/
inductive Learned where
  /-- The bound says nothing new. -/
  | unchanged
  /-- The interval narrows. -/
  | changed (old new : Interval)
  /-- No degree is in both; nothing is written. -/
  | contradiction (existing incoming : Interval)
deriving DecidableEq

/-- What becomes of a label when it learns a bound. -/
def preview (w : World) (label : Label) (bound : Interval) : Learned :=
  let existing := w.bound label
  if existing.Disjoint bound then .contradiction existing bound
  else
    let merged := existing.meet bound
    if merged.same existing then .unchanged else .changed existing merged

/-- A label learns a bound. Nothing is written unless the interval changes. -/
def learn (w : World) (label : Label) (bound : Interval) : World × Learned :=
  match w.preview label bound with
  | .changed old new => (w.put label new, .changed old new)
  | other => (w, other)

/-- Writes a bound, whatever the label holds. The previous bounds stay, and so does its being
static. -/
def overwrite (w : World) (label : Label) (bound : Interval) : World :=
  w.put label ((w.bound label).withBounds bound.lower bound.upper)

/-- Lets the value of a label outlive timesteps, or no longer. A label that the world does not have
stays away. -/
def setStatic (w : World) (label : Label) (isStatic : Bool) : World :=
  match w.get? label with
  | some i => w.put label (i.withStatic isStatic)
  | none => w

/-- Start of a timestep: each value that is not static becomes unknown. -/
def reset (w : World) : World where
  entries := w.entries.map fun e => (e.1, e.2.reset)
  ascending := by
    rw [Entries.Ascending, List.pairwise_map]
    exact w.ascending

end World

end AnnotatedLogic
