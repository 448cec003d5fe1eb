import AnnotatedLogic.Interval
import AnnotatedLogic.Proofs.Degree.Order
/-!
# Intervals as values

Two intervals count as equal when their bounds do (`same`); what else they carry is bookkeeping.

* `same_iff`, `same_refl`, `same_symm`, `same_trans`: an equivalence of intervals whose bounds are
  numbers.
* `Given P`, `Closed P`: the property `P` holds of the bounds that are constant or computed, and of
  every interval that the reasoner makes out of intervals of which it holds. `given_ordered` and
  `closed_isNumeric` say so of having the bounds in order and of having numbers as bounds.
* `not_disjoint_of_same`, `same_meet_of_same`: an interval does not contradict an equal one, and
  learns nothing from it.
* `unknown_meet`: what nothing is known of learns all that a bound says at once.
-/

namespace AnnotatedLogic

namespace Interval

open Degree

/-! ## Equal bounds -/

/-- Both bounds are numbers. -/
def IsNumeric (i : Interval) : Prop := IsNumber i.lower ∧ IsNumber i.upper

instance (i : Interval) : Decidable i.IsNumeric := inferInstanceAs (Decidable (_ ∧ _))

theorem same_iff {i j : Interval} :
    i.same j = true ↔ i.IsNumeric ∧ j.IsNumeric ∧ place i.lower = place j.lower
      ∧ place i.upper = place j.upper := by
  unfold same IsNumeric
  rw [Bool.and_eq_true, beq_iff, beq_iff]
  constructor
  · rintro ⟨⟨hil, hjl, hl⟩, hiu, hju, hu⟩
    exact ⟨⟨hil, hiu⟩, ⟨hjl, hju⟩, hl, hu⟩
  · rintro ⟨⟨hil, hiu⟩, ⟨hjl, hju⟩, hl, hu⟩
    exact ⟨⟨hil, hjl, hl⟩, hiu, hju, hu⟩

theorem same_refl {i : Interval} (h : i.IsNumeric) : i.same i = true :=
  same_iff.2 ⟨h, h, rfl, rfl⟩

theorem same_symm {i j : Interval} (h : i.same j = true) : j.same i = true := by
  obtain ⟨hi, hj, hl, hu⟩ := same_iff.1 h
  exact same_iff.2 ⟨hj, hi, hl.symm, hu.symm⟩

theorem same_trans {i j k : Interval} (hij : i.same j = true) (hjk : j.same k = true) :
    i.same k = true := by
  obtain ⟨hi, -, hl, hu⟩ := same_iff.1 hij
  obtain ⟨-, hk, hl', hu'⟩ := same_iff.1 hjk
  exact same_iff.2 ⟨hi, hk, hl.trans hl', hu.trans hu'⟩

/-- The lower bound does not lie above the upper one. -/
def Ordered (i : Interval) : Prop := ¬ i.upper < i.lower

instance (i : Interval) : Decidable i.Ordered := inferInstanceAs (Decidable (¬ _))

theorem ordered_clamped (l u : Degree) : (clamped l u).Ordered := by
  unfold clamped Ordered
  dsimp only
  split
  · next h =>
    intro hlt
    exact absurd (lt_iff.1 hlt).2.2 (not_lt.2 (le_iff.1 h).2.2)
  · next h =>
    intro hlt
    obtain ⟨hl, hu, hp⟩ := lt_iff.1 hlt
    exact h (le_iff.2 ⟨hl, hu, hp.le⟩)

/-- An interval does not contradict one with the same bounds. -/
theorem not_disjoint_of_same {i j : Interval} (h : i.same j = true) (hj : j.Ordered) :
    ¬ i.Disjoint j := by
  obtain ⟨⟨hil, hiu⟩, ⟨hjl, hju⟩, hl, hu⟩ := same_iff.1 h
  rintro (hlt | hlt)
  · exact hj (lt_iff.2 ⟨hju, hjl, hl ▸ (lt_iff.1 hlt).2.2⟩)
  · exact hj (lt_iff.2 ⟨hju, hjl, hu ▸ (lt_iff.1 hlt).2.2⟩)

/-- An interval learns nothing from one with the same bounds. -/
theorem same_meet_of_same {i j : Interval} (h : i.same j = true) (hj : j.Ordered) :
    (i.meet j).same i = true := by
  obtain ⟨⟨hil, hiu⟩, ⟨hjl, hju⟩, hl, hu⟩ := same_iff.1 h
  have hlower : place (i.lower.larger j.lower) = place i.lower := by
    rw [place_larger hil hjl, hl, max_self]
  have hupper : place (i.upper.smaller j.upper) = place i.upper := by
    rw [place_smaller hiu hju, hu, min_self]
  unfold meet
  dsimp only
  split
  · next hlt =>
    obtain ⟨-, -, hp⟩ := lt_iff.1 hlt
    rw [hlower, hupper, hl, hu] at hp
    exact absurd (lt_iff.2 ⟨hju, hjl, hp⟩) hj
  · exact same_iff.2 ⟨⟨hil.larger, hiu.smaller⟩, ⟨hil, hiu⟩, hlower, hupper⟩

/-- What nothing is known of learns all that a bound says at once. -/
theorem unknown_meet {b : Interval} (h : (unknown.meet b).same unknown = false) :
    ¬ unknown.Disjoint (unknown.meet b) ∧ unknown.meet (unknown.meet b) = unknown.meet b := by
  have hzero : IsNumber (0 : Degree) := by decide
  have hone : IsNumber (1 : Degree) := by decide
  by_cases hlt : (1 : Degree).smaller b.upper < (0 : Degree).larger b.lower
  · have hempty : unknown.meet b = unknown := by
      unfold meet
      exact if_pos hlt
    rw [hempty, same_refl (by decide)] at h
    cases h
  · have hmeet : unknown.meet b
        = { unknown with lower := (0 : Degree).larger b.lower, upper := (1 : Degree).smaller b.upper } := by
      unfold meet
      exact if_neg hlt
    have hle : place ((0 : Degree).larger b.lower) ≤ place ((1 : Degree).smaller b.upper) :=
      not_lt.1 fun hplace => hlt (lt_iff.2 ⟨hone.smaller, hzero.larger, hplace⟩)
    have hlower := place_le_larger hzero b.lower
    have hupper := smaller_place_le hone b.upper
    rw [hmeet]
    refine ⟨?_, ?_⟩
    · rintro (hdisjoint | hdisjoint)
      · exact absurd ((lt_iff.1 hdisjoint).2.2.trans_le (hlower.trans hle)) (lt_irrefl _)
      · exact absurd ((lt_iff.1 hdisjoint).2.2.trans_le (hle.trans hupper)) (lt_irrefl _)
    · unfold meet
      dsimp only
      rw [show unknown.lower = (0 : Degree) from rfl, show unknown.upper = (1 : Degree) from rfl,
        larger_larger, smaller_smaller, if_neg hlt]

/-! ## Properties that all intervals made from others keep -/

/-- `P` holds of the constants and of bounds that are computed. -/
structure Given (P : Interval → Prop) : Prop where
  unknown : P .unknown
  certain : P .certain
  clamped : ∀ l u, P (.clamped l u)

/-- `P` holds of the constants and of whatever the reasoner makes out of intervals with `P`. -/
structure Closed (P : Interval → Prop) : Prop extends Given P where
  withBounds : ∀ {i j}, P i → P j → P (i.withBounds j.lower j.upper)
  withStatic : ∀ {i} (s), P i → P (i.withStatic s)
  reset : ∀ {i}, P i → P i.reset
  meet : ∀ {i j}, P i → P j → P (i.meet j)
  complement : ∀ {i}, P i → P i.complement

theorem given_ordered : Given Ordered := ⟨by decide, by decide, ordered_clamped⟩

theorem closed_true : Closed fun _ => True where
  unknown := trivial
  certain := trivial
  clamped _ _ := trivial
  withBounds _ _ := trivial
  withStatic _ _ := trivial
  reset _ := trivial
  meet _ _ := trivial
  complement _ := trivial

theorem closed_isNumeric : Closed IsNumeric where
  unknown := by decide
  certain := by decide
  clamped l u := by
    unfold Interval.clamped
    dsimp only
    split
    · exact ⟨isNumber_clamp l, isNumber_clamp u⟩
    · exact ⟨isNumber_clamp u, isNumber_clamp l⟩
  withBounds _ hj := hj
  withStatic _ hi := hi
  reset hi := by
    unfold Interval.reset
    split
    · exact hi
    · exact (by decide : IsNumeric unknown)
  meet hi hj := by
    unfold Interval.meet
    dsimp only
    split
    · exact (by decide : IsNumeric unknown)
    · exact ⟨hi.1.larger, hi.2.smaller⟩
  complement hi := ⟨hi.2.one_sub, hi.1.one_sub⟩

/-- The bounds of a truth value are numbers. -/
theorem isNumeric_of_proper {i : Interval} (h : Proper i.lower i.upper) : i.IsNumeric := by
  obtain ⟨hl, hu, -⟩ := h
  exact ⟨isNumber_of_inUnit hl, isNumber_of_inUnit hu⟩

end Interval

end AnnotatedLogic
