import AnnotatedLogic.Degree
import Mathlib.Data.Prod.Lex
import Mathlib.Order.Basic
/-!
# The order of degrees

Comparisons of doubles are false as soon as one side is no number, and the two zeros count as
equal. On numbers they are those of a linear order: `place` sends every double to a triple, and the
comparisons are those of the triples.

* `le_iff`, `lt_iff`, `beq_iff`: the comparisons of doubles, said of their places.
* `place_larger`, `place_smaller`: the bounds of a meet are the maximum and the minimum.
* `IsNumber.one_sub`, `isNumber_clamp`: complements and clamped values are numbers.
-/

namespace AnnotatedLogic

namespace Degree

open Float.Model

/-! ## Places -/

/-- Where an unpacked double stands: first its class from negative to positive infinity, then the
exponent, then the mantissa. -/
def unpackedPlace : UnpackedFloat → Int ×ₗ Int ×ₗ Int
  | .notANumber | .zero _ => toLex (0, toLex (0, 0))
  | .infinity .positive => toLex (2, toLex (0, 0))
  | .infinity .negative => toLex (-2, toLex (0, 0))
  | .finite .positive m e _ => toLex (1, toLex (e, (m : Int)))
  | .finite .negative m e _ => toLex (-1, toLex (-e, -(m : Int)))

/-- Where a double stands among the numbers. -/
def place (x : Degree) : Int ×ₗ Int ×ₗ Int := unpackedPlace x.toModel.unpack

/-- The double is a number, possibly an infinite one. -/
def IsNumber (x : Degree) : Prop := x.isNaN = false

instance (x : Degree) : Decidable (IsNumber x) := inferInstanceAs (Decidable (_ = _))

private theorem compare_neg (e f : Int) : compare (-e) (-f) = (compare e f).swap := by
  rcases lt_trichotomy e f with h | rfl | h
  · rw [compare_lt_iff_lt.2 h, compare_gt_iff_gt.2 (Int.neg_lt_neg h)]
    rfl
  · simp
  · rw [compare_gt_iff_gt.2 h, compare_lt_iff_lt.2 (Int.neg_lt_neg h)]
    rfl

private theorem compare_natCast (m n : Nat) : compare (m : Int) (n : Int) = compare m n := by
  rcases lt_trichotomy m n with h | rfl | h
  · rw [compare_lt_iff_lt.2 h, compare_lt_iff_lt.2 (Int.ofNat_lt.2 h)]
  · simp
  · rw [compare_gt_iff_gt.2 h, compare_gt_iff_gt.2 (Int.ofNat_lt.2 h)]

/-- Two numbers compare as their places do. -/
theorem compare_eq_some {a b : UnpackedFloat} (ha : a.isNaN = false) (hb : b.isNaN = false) :
    a.compare b = some (compare (unpackedPlace a) (unpackedPlace b)) := by
  have houter (x y : Int × (Int ×ₗ Int)) :
      compare (toLex x) (toLex y) = (compare x.1 y.1).then (compare x.2 y.2) := rfl
  have hinner (x y : Int × Int) :
      compare (toLex x) (toLex y) = (compare x.1 y.1).then (compare x.2 y.2) := rfl
  cases a with
  | notANumber => cases ha
  | infinity s =>
    cases b with
    | notANumber => cases hb
    | infinity t => cases s <;> cases t <;> rfl
    | zero t => cases s <;> rfl
    | finite t n f hn => cases s <;> cases t <;> rfl
  | zero s =>
    cases b with
    | notANumber => cases hb
    | infinity t => cases t <;> rfl
    | zero t => rfl
    | finite t n f hn => cases t <;> rfl
  | finite s m e hm =>
    cases b with
    | notANumber => cases hb
    | infinity t => cases s <;> cases t <;> rfl
    | zero t => cases s <;> rfl
    | finite t n f hn =>
      -- Only two finite doubles of one sign need the exponent and the mantissa.
      cases s <;> cases t
      · show some ((compare e f).then (compare m n)).swap
          = some (compare (toLex (-1, toLex (-e, -(m : Int)))) (toLex (-1, toLex (-f, -(n : Int)))))
        simp [houter, hinner, compare_neg, compare_natCast, Ordering.swap_then]
      · rfl
      · rfl
      · show some ((compare e f).then (compare m n))
          = some (compare (toLex (1, toLex (e, (m : Int)))) (toLex (1, toLex (f, (n : Int)))))
        simp [houter, hinner, compare_natCast]

theorem compare_eq_none {a b : UnpackedFloat} (h : a.isNaN = true ∨ b.isNaN = true) :
    a.compare b = none := by
  rcases h with h | h
  · cases a with
    | notANumber => cases b <;> rfl
    | infinity | zero | finite => cases h
  · cases b with
    | notANumber => cases a <;> rfl
    | infinity | zero | finite => cases h

/-- A comparison of doubles looks at the places of two numbers. -/
private theorem compare_cases (x y : Degree) :
    (IsNumber x ∧ IsNumber y ∧
        x.toModel.unpack.compare y.toModel.unpack = some (compare (place x) (place y))) ∨
      (¬ (IsNumber x ∧ IsNumber y) ∧ x.toModel.unpack.compare y.toModel.unpack = none) := by
  have hx : x.isNaN = x.toModel.unpack.isNaN := rfl
  have hy : y.isNaN = y.toModel.unpack.isNaN := rfl
  unfold IsNumber
  rw [hx, hy]
  cases h : x.toModel.unpack.isNaN
  · cases h' : y.toModel.unpack.isNaN
    · exact .inl ⟨rfl, rfl, compare_eq_some h h'⟩
    · exact .inr ⟨by simp, compare_eq_none (.inr h')⟩
  · exact .inr ⟨by simp, compare_eq_none (.inl h)⟩

theorem le_iff {x y : Degree} : x ≤ y ↔ IsNumber x ∧ IsNumber y ∧ place x ≤ place y := by
  have hle : x ≤ y ↔ (x.toModel.unpack.compare y.toModel.unpack).any (·.isLE) = true := by
    show decide (x.toModel ≤ y.toModel) = true ↔ _
    rw [decide_eq_true_iff]
    rfl
  rw [hle]
  rcases compare_cases x y with ⟨hx, hy, h⟩ | ⟨hn, h⟩
  · rw [h]
    simp [hx, hy, Ordering.isLE_iff_ne_gt, compare_gt_iff_gt]
  · rw [h]
    simp only [Option.any_none, Bool.false_eq_true, false_iff]
    exact fun ⟨hx, hy, _⟩ => hn ⟨hx, hy⟩

theorem lt_iff {x y : Degree} : x < y ↔ IsNumber x ∧ IsNumber y ∧ place x < place y := by
  have hlt : x < y ↔ x.toModel.unpack.compare y.toModel.unpack = some .lt := by
    show decide (x.toModel < y.toModel) = true ↔ _
    rw [decide_eq_true_iff]
    show (x.toModel.unpack.compare y.toModel.unpack == some .lt) = true ↔ _
    exact beq_iff_eq
  rw [hlt]
  rcases compare_cases x y with ⟨hx, hy, h⟩ | ⟨hn, h⟩
  · rw [h]
    simp [hx, hy, compare_lt_iff_lt]
  · rw [h]
    simp only [reduceCtorEq, false_iff]
    exact fun ⟨hx, hy, _⟩ => hn ⟨hx, hy⟩

theorem beq_iff {x y : Degree} : (x == y) = true ↔ IsNumber x ∧ IsNumber y ∧ place x = place y := by
  have heq : (x == y) = true ↔ x.toModel.unpack.compare y.toModel.unpack = some .eq := by
    show (x.toModel.unpack.compare y.toModel.unpack == some .eq) = true ↔ _
    exact beq_iff_eq
  rw [heq]
  rcases compare_cases x y with ⟨hx, hy, h⟩ | ⟨hn, h⟩
  · rw [h]
    simp [hx, hy, compare_eq_iff_eq]
  · rw [h]
    simp only [reduceCtorEq, false_iff]
    exact fun ⟨hx, hy, _⟩ => hn ⟨hx, hy⟩

/-- What is no number is not in `[0, 1]`. -/
theorem isNumber_of_inUnit {x : Degree} (h : x.inUnit = true) : IsNumber x := by
  unfold inUnit at h
  rw [Bool.and_eq_true, decide_eq_true_iff] at h
  exact (le_iff.1 h.1).2.1

/-! ## Bounds of a meet -/

theorem IsNumber.larger {x y : Degree} (hx : IsNumber x) : IsNumber (x.larger y) := by
  unfold Degree.larger
  cases h : y.isNaN
  · rw [if_neg Bool.false_ne_true]
    split
    · exact hx
    · exact h
  · rw [if_pos rfl]
    exact hx

theorem IsNumber.smaller {x y : Degree} (hx : IsNumber x) : IsNumber (x.smaller y) := by
  unfold Degree.smaller
  cases h : y.isNaN
  · rw [if_neg Bool.false_ne_true]
    split
    · exact hx
    · exact h
  · rw [if_pos rfl]
    exact hx

theorem place_larger {x y : Degree} (hx : IsNumber x) (hy : IsNumber y) :
    place (x.larger y) = max (place x) (place y) := by
  unfold Degree.larger
  rw [if_neg (by rw [hy]; exact Bool.false_ne_true)]
  split
  · next h => exact (max_eq_left (lt_iff.1 h).2.2.le).symm
  · next h => exact (max_eq_right (not_lt.1 fun hlt => h (lt_iff.2 ⟨hy, hx, hlt⟩))).symm

theorem place_smaller {x y : Degree} (hx : IsNumber x) (hy : IsNumber y) :
    place (x.smaller y) = min (place x) (place y) := by
  unfold Degree.smaller
  rw [if_neg (by rw [hy]; exact Bool.false_ne_true)]
  split
  · next h => exact (min_eq_left (lt_iff.1 h).2.2.le).symm
  · next h => exact (min_eq_right (not_lt.1 fun hlt => h (lt_iff.2 ⟨hx, hy, hlt⟩))).symm

/-- The second time, a bound changes nothing. -/
theorem larger_larger (x y : Degree) : x.larger (x.larger y) = x.larger y := by
  have hself : x.larger x = x := by
    unfold Degree.larger
    split
    · rfl
    · split <;> rfl
  unfold Degree.larger
  split
  · exact hself
  · split
    · exact hself
    · rfl

theorem smaller_smaller (x y : Degree) : x.smaller (x.smaller y) = x.smaller y := by
  have hself : x.smaller x = x := by
    unfold Degree.smaller
    split
    · rfl
    · split <;> rfl
  unfold Degree.smaller
  split
  · exact hself
  · split
    · exact hself
    · rfl

theorem place_le_larger {x : Degree} (hx : IsNumber x) (y : Degree) :
    place x ≤ place (x.larger y) := by
  cases hy : y.isNaN with
  | false =>
    rw [place_larger hx hy]
    exact le_max_left ..
  | true =>
    unfold Degree.larger
    rw [if_pos hy]

theorem smaller_place_le {x : Degree} (hx : IsNumber x) (y : Degree) :
    place (x.smaller y) ≤ place x := by
  cases hy : y.isNaN with
  | false =>
    rw [place_smaller hx hy]
    exact min_le_left ..
  | true =>
    unfold Degree.smaller
    rw [if_pos hy]

/-! ## Complements and clamped values -/

private theorem isNaN_unpack {b : BitVec Format.binary64.numBits}
    (h : UnpackedFloat.unpackExponent b = -1#_ → UnpackedFloat.unpackMantissa b = 0#_) :
    (UnpackedFloat.unpack Format.binary64 b).isNaN = false := by
  by_cases he : UnpackedFloat.unpackExponent b = -1#_
  · rw [show UnpackedFloat.unpack Format.binary64 b = .infinity _ from
      (if_pos he).trans (if_pos (h he))]
    rfl
  · by_cases hz : UnpackedFloat.unpackExponent b = 0#_
    · by_cases hm : UnpackedFloat.unpackMantissa b = 0#_
      · rw [show UnpackedFloat.unpack Format.binary64 b = .zero _ from
          (if_neg he).trans ((if_pos hz).trans (dif_pos hm))]
        rfl
      · rw [show UnpackedFloat.unpack Format.binary64 b = .finite .. from
          (if_neg he).trans ((if_pos hz).trans (dif_neg hm))]
        rfl
    · rw [show UnpackedFloat.unpack Format.binary64 b = .finite .. from
        (if_neg he).trans (if_neg hz)]
      rfl

/-- Packing does not lose that a double is a number: only what is none gets the highest exponent
together with a mantissa. -/
private theorem isNaN_unpack_pack {u : UnpackedFloat} (h : u.isNaN = false) :
    (UnpackedFloat.unpack Format.binary64 (UnpackedFloat.pack Format.binary64 u)).isNaN = false := by
  apply isNaN_unpack
  have hinfinity (s : UnpackedFloat.Sign) :
      UnpackedFloat.unpackExponent (UnpackedFloat.packedInfinity Format.binary64 s) = -1#_ →
        UnpackedFloat.unpackMantissa (UnpackedFloat.packedInfinity Format.binary64 s) = 0#_ := by
    simp [UnpackedFloat.packedInfinity]
  cases u with
  | notANumber => cases h
  | infinity s => exact hinfinity s
  | zero s =>
    show UnpackedFloat.unpackExponent (UnpackedFloat.packedZero Format.binary64 s) = -1#_ →
      UnpackedFloat.unpackMantissa (UnpackedFloat.packedZero Format.binary64 s) = 0#_
    simp [UnpackedFloat.packedZero]
  | finite s m e hm =>
    generalize hk : (e + Format.binary64.exponentBias
      + Format.binary64.mantissaBitsWithoutImplicit).toNat = k
    have hpack : UnpackedFloat.pack Format.binary64 (.finite s m e hm) =
        if 2 ^ Format.binary64.exponentBits ≤ k + 1 then
          UnpackedFloat.packedInfinity Format.binary64 s
        else if m.log2 + 1 = Format.binary64.mantissaBits then
          UnpackedFloat.packComponents Format.binary64 s (BitVec.ofNat _ k) (BitVec.ofNat _ m)
        else UnpackedFloat.packComponents Format.binary64 s 0#_ (BitVec.ofNat _ m) := by
      rw [← hk]
      rfl
    rw [hpack]
    split
    · exact hinfinity s
    · next hk =>
      split
      · intro he
        rw [UnpackedFloat.unpackExponent_packComponents] at he
        have hn := congrArg BitVec.toNat he
        simp at hn hk
        omega
      · intro he
        rw [UnpackedFloat.unpackExponent_packComponents] at he
        exact absurd he (by decide)

private theorem isNaN_normalize (m e : Int) (s : UnpackedFloat.Sign) :
    (UnpackedFloat.normalize Format.binary64 m e s).isNaN = false := by
  have hresult (t : UnpackedFloat.Sign) (k : Nat) (x : Int) :
      (if h : k = 0 then UnpackedFloat.zero t
        else .finite t k x (Nat.pos_of_ne_zero h)).isNaN = false := by
    cases k <;> rfl
  have hround (t : UnpackedFloat.Sign) (n : Nat) :
      (UnpackedFloat.round Format.binary64 t n e).isNaN = false := hresult t _ _
  unfold UnpackedFloat.normalize
  split
  · exact hround _ _
  · rfl
  · exact hround _ _

private theorem isNaN_sub {a b : UnpackedFloat} (ha : a.isFinite = true) (hb : b.isNaN = false) :
    (UnpackedFloat.sub Format.binary64 a b).isNaN = false := by
  cases a with
  | notANumber | infinity => cases ha
  | zero s =>
    cases b with
    | notANumber => cases hb
    | infinity t => rfl
    | zero t => cases s <;> cases t <;> rfl
    | finite => rfl
  | finite s m e hm =>
    cases b with
    | notANumber => cases hb
    | infinity t => rfl
    | zero t => rfl
    | finite => exact isNaN_normalize ..

/-- The complement of a number is one. -/
theorem IsNumber.one_sub {x : Degree} (h : IsNumber x) : IsNumber (1 - x) := by
  have hone : (1 : Float).toModel.unpack.isFinite = true := by decide
  exact isNaN_unpack_pack (isNaN_sub hone h)

theorem isNumber_clamp (x : Degree) : IsNumber x.clamp := by
  unfold clamp
  cases h : x.isNaN
  · rw [if_neg Bool.false_ne_true]
    split
    · decide
    · split
      · decide
      · exact h
  · rw [if_pos rfl]
    decide

end Degree

end AnnotatedLogic
