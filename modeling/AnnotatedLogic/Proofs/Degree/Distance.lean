import AnnotatedLogic.Proofs.Degree.Complement
import Mathlib.Data.Nat.Dist
/-!
# The distance of two degrees

`Degree.distance` subtracts and drops the sign of what the subtraction has been rounded to. For degrees in
`[0, 1]` this is the exact distance, rounded; so it lies in `[0, 1]`, and it is zero for equal degrees and
for no others.

* `abs_unpack_pack`: the sign has no part in storing a double.
* `Measures.abs_sub`: the distance before it is stored, in units.
* `measures_distance`: the distance, in units. So `inUnit_distance` and `distance_le_zero_iff`.
* `foldl_larger_le_iff`, `foldl_larger_greatest`: the largest of some degrees.
-/

namespace AnnotatedLogic

namespace Degree

open Float.Model Float.Model.UnpackedFloat

/-! ## Without the sign -/

theorem toNat_implicitBit_pos (m : BitVec 52) : 0 < (1#1 ++ m).toNat := by
  rw [toNat_implicitBit]
  omega

theorem toNat_pos_of_ne {m : BitVec 52} (h : m ≠ 0#52) : 0 < m.toNat :=
  Nat.pos_of_ne_zero fun hz => h (BitVec.eq_of_toNat_eq hz)

/-- The double with these bits for exponent and mantissa, without its sign. -/
def magnitude (e : BitVec 11) (m : BitVec 52) : UnpackedFloat :=
  if e = -1#11 then
    if m = 0#52 then .infinity .positive else .notANumber
  else if e = 0#11 then
    if hm : m = 0#52 then .zero .positive
    else .finite .positive m.toNat (-1074) (toNat_pos_of_ne hm)
  else .finite .positive (1#1 ++ m).toNat (e.toNat - 1075) (toNat_implicitBit_pos m)

/-- What is unpacked depends on the sign bit only by its sign. -/
theorem abs_unpack (b : BitVec Format.binary64.numBits) :
    (UnpackedFloat.unpack Format.binary64 b).abs = magnitude (unpackExponent b) (unpackMantissa b) := by
  by_cases htop : unpackExponent b = -1#11
  · by_cases hz : unpackMantissa b = 0#52
    · exact (congrArg UnpackedFloat.abs ((if_pos htop).trans (if_pos hz))).trans
        ((if_pos htop).trans (if_pos hz)).symm
    · exact (congrArg UnpackedFloat.abs ((if_pos htop).trans (if_neg hz))).trans
        ((if_pos htop).trans (if_neg hz)).symm
  · by_cases hlow : unpackExponent b = 0#11
    · by_cases hz : unpackMantissa b = 0#52
      · have hzero : magnitude (unpackExponent b) (unpackMantissa b) = .zero .positive :=
          (if_neg htop).trans ((if_pos hlow).trans (dif_pos hz))
        rw [hzero]
        exact congrArg UnpackedFloat.abs ((if_neg htop).trans ((if_pos hlow).trans (dif_pos hz)))
      · refine (congrArg UnpackedFloat.abs
          ((if_neg htop).trans ((if_pos hlow).trans (dif_neg hz)))).trans (.trans ?_
            ((if_neg htop).trans ((if_pos hlow).trans (dif_neg hz))).symm)
        exact finite_congr rfl rfl (by rw [hlow]; rfl)
    · refine (congrArg UnpackedFloat.abs ((if_neg htop).trans (if_neg hlow))).trans (.trans ?_
        ((if_neg htop).trans (if_neg hlow)).symm)
      exact finite_congr rfl rfl rfl

theorem abs_unpack_packComponents (s : Sign) (e : BitVec 11) (m : BitVec 52) :
    (UnpackedFloat.unpack Format.binary64 (packComponents Format.binary64 s e m)).abs
      = magnitude e m := by
  generalize hb : packComponents Format.binary64 s e m = b
  have he : unpackExponent b = e := hb ▸ unpackExponent_packComponents
  have hm : unpackMantissa b = m := hb ▸ unpackMantissa_packComponents
  rw [abs_unpack, he, hm]

/-- The sign has no part in storing a double. -/
theorem abs_unpack_pack (u : UnpackedFloat) :
    (UnpackedFloat.unpack Format.binary64 (UnpackedFloat.pack Format.binary64 u)).abs
      = (UnpackedFloat.unpack Format.binary64 (UnpackedFloat.pack Format.binary64 u.abs)).abs := by
  have hcomponents (s t : Sign) (e : BitVec 11) (m : BitVec 52) :=
    (abs_unpack_packComponents s e m).trans (abs_unpack_packComponents t e m).symm
  cases u with
  | notANumber => rfl
  | infinity s => exact hcomponents s .positive _ _
  | zero s => exact hcomponents s .positive _ _
  | finite s m e hm =>
    generalize hbiased : (e + Format.binary64.exponentBias
      + Format.binary64.mantissaBitsWithoutImplicit).toNat = biased
    have hpack (s : Sign) : UnpackedFloat.pack Format.binary64 (.finite s m e hm)
        = if 2 ^ 11 ≤ biased + 1 then packComponents Format.binary64 s (-1#11) 0
          else if m.log2 + 1 = 53 then
            packComponents Format.binary64 s (BitVec.ofNat 11 biased) (BitVec.ofNat 52 m)
          else packComponents Format.binary64 s 0#11 (BitVec.ofNat 52 m) := by
      rw [← hbiased]
      rfl
    show _ = (UnpackedFloat.unpack Format.binary64
      (UnpackedFloat.pack Format.binary64 (.finite .positive m e hm))).abs
    rw [hpack s, hpack .positive]
    by_cases hlarge : 2 ^ 11 ≤ biased + 1
    · rw [if_pos hlarge, if_pos hlarge]
      exact hcomponents s .positive _ _
    · by_cases hnormal : m.log2 + 1 = 53
      · rw [if_neg hlarge, if_neg hlarge, if_pos hnormal, if_pos hnormal]
        exact hcomponents s .positive _ _
      · rw [if_neg hlarge, if_neg hlarge, if_neg hnormal, if_neg hnormal]
        exact hcomponents s .positive _ _

theorem abs_round (s : Sign) (m : Nat) (e : Int) :
    (UnpackedFloat.round Format.binary64 s m e).abs = UnpackedFloat.round Format.binary64 .positive m e := by
  unfold UnpackedFloat.round roundWithAccuracy
  dsimp only
  exact apply_dite UnpackedFloat.abs _ _ _

/-- An integer is rounded to the same magnitude as its absolute value. -/
theorem abs_normalize (d : Int) (e : Int) :
    (UnpackedFloat.normalize Format.binary64 d e .positive).abs
      = UnpackedFloat.normalize Format.binary64 (d.natAbs : Int) e .positive := by
  unfold UnpackedFloat.normalize
  rcases lt_trichotomy d 0 with h | rfl | h
  · have hpos : 0 < (d.natAbs : Int) := by omega
    have habs : (-d).toNat = (d.natAbs : Int).toNat := by omega
    rw [compare_lt_iff_lt.2 h, compare_gt_iff_gt.2 hpos, ← habs]
    exact abs_round ..
  · rfl
  · have habs : (d.natAbs : Int) = d := by omega
    rw [habs, compare_gt_iff_gt.2 h]
    exact abs_round ..

/-- What is measured has no sign to drop, but for that of a zero. -/
theorem Measures.unpack_abs {u : UnpackedFloat} {n : Nat} (h : Measures u.abs n) (hn : n < ceiling) :
    (UnpackedFloat.unpack Format.binary64 (UnpackedFloat.pack Format.binary64 u)).abs = u.abs := by
  rw [abs_unpack_pack, h.unpack_pack hn]
  cases u <;> rfl

/-! ## The distance -/

/-- The distance before it is stored, in units. -/
theorem Measures.abs_sub {u u' : UnpackedFloat} {n n' : Nat} (h : Measures u n) (h' : Measures u' n') :
    Measures (UnpackedFloat.sub Format.binary64 u u').abs (rounded (n.dist n')) := by
  cases h with
  | zero s =>
    rw [Nat.dist_zero_left, h'.rounded_eq]
    cases h' with
    | zero t => cases s <;> cases t <;> exact .zero _
    | finite hm he hlt hfull hn => exact .finite hm he hlt hfull hn
  | @finite m _ k e hm he hlt hfull hn =>
    cases h' with
    | zero t =>
      rw [Nat.dist_zero_right, (Measures.finite hm he hlt hfull hn).rounded_eq]
      exact .finite hm he hlt hfull hn
    | @finite m' _ k' e' hm' he' hlt' hfull' hn' =>
      subst hn hn' he he'
      -- Both are multiples of the unit that belongs to the smaller exponent.
      generalize hj : min k k' = j
      have hm₁ : m * 2 ^ k = m * 2 ^ (k - j) * 2 ^ j := by
        rw [Nat.mul_assoc, ← Nat.pow_add, Nat.sub_add_cancel (by omega)]
      have hm₂ : m' * 2 ^ k' = m' * 2 ^ (k' - j) * 2 ^ j := by
        rw [Nat.mul_assoc, ← Nat.pow_add, Nat.sub_add_cancel (by omega)]
      have hsub : UnpackedFloat.sub Format.binary64 (.finite .positive m ((k : Int) - 1074) hm)
            (.finite .positive m' ((k' : Int) - 1074) hm')
          = UnpackedFloat.normalize Format.binary64
              (((m * 2 ^ (k - j) : Nat) : Int) - ((m' * 2 ^ (k' - j) : Nat) : Int))
              ((j : Int) - 1074) .positive := by
        unfold UnpackedFloat.sub decreaseExponent
        dsimp only
        rw [show min ((k : Int) - 1074) ((k' : Int) - 1074) = (j : Int) - 1074 by omega,
          show ((k : Int) - 1074 - ((j : Int) - 1074)).toNat = k - j by omega,
          show ((k' : Int) - 1074 - ((j : Int) - 1074)).toNat = k' - j by omega, Nat.shiftLeft_eq,
          Nat.shiftLeft_eq]
        rfl
      have hdist : (((m * 2 ^ (k - j) : Nat) : Int) - ((m' * 2 ^ (k' - j) : Nat) : Int)).natAbs
          = (m * 2 ^ (k - j)).dist (m' * 2 ^ (k' - j)) := by
        unfold Nat.dist
        omega
      rw [hsub, abs_normalize, hdist, hm₁, hm₂, Nat.dist_mul_right]
      exact measures_normalize _ j

variable {x y : Degree}

theorem dist_units_le_whole (hx : x.inUnit = true) (hy : y.inUnit = true) :
    x.units.dist y.units ≤ whole := by
  have hxle := (measures_units hx).1
  have hyle := (measures_units hy).1
  unfold Nat.dist
  omega

/-- The distance, in units. -/
theorem measures_distance (hx : x.inUnit = true) (hy : y.inUnit = true) :
    Measures (x.distance y).toModel.unpack (rounded (x.units.dist y.units)) := by
  have hsub := (measures_units hx).2.abs_sub (measures_units hy).2
  have hlt := (rounded_le_whole (dist_units_le_whole hx hy)).trans_lt whole_lt_ceiling
  show Measures (UnpackedFloat.unpack Format.binary64 (UnpackedFloat.pack Format.binary64
    (UnpackedFloat.unpack Format.binary64 (UnpackedFloat.pack Format.binary64 _)).abs)) _
  rw [hsub.unpack_abs hlt, hsub.unpack_pack hlt]
  exact hsub

theorem inUnit_distance (hx : x.inUnit = true) (hy : y.inUnit = true) :
    (x.distance y).inUnit = true :=
  inUnit_iff.2 ⟨_, rounded_le_whole (dist_units_le_whole hx hy), measures_distance hx hy⟩

theorem rounded_eq_zero {n : Nat} : rounded n = 0 ↔ n = 0 := by
  constructor
  · intro h
    have hone : rounded 1 = 1 := rounded_mul_pow (m := 1) (by decide) 0
    by_contra hn
    have := rounded_mono (Nat.one_le_iff_ne_zero.2 hn)
    omega
  · rintro rfl
    exact rounded_zero

/-- Degrees that compare as equal have the same value. -/
theorem beq_iff_units (hx : x.inUnit = true) (hy : y.inUnit = true) :
    (x == y) = true ↔ x.units = y.units := by
  have hnx := isNumber_of_inUnit hx
  have hny := isNumber_of_inUnit hy
  have hle : place x ≤ place y ↔ x.units ≤ y.units := by
    rw [← le_iff_units hx hy, le_iff]
    exact ⟨fun h => ⟨hnx, hny, h⟩, fun h => h.2.2⟩
  have hge : place y ≤ place x ↔ y.units ≤ x.units := by
    rw [← le_iff_units hy hx, le_iff]
    exact ⟨fun h => ⟨hny, hnx, h⟩, fun h => h.2.2⟩
  rw [beq_iff, le_antisymm_iff, hle, hge, ← le_antisymm_iff]
  exact ⟨fun h => h.2.2, fun h => ⟨hnx, hny, h⟩⟩

/-- Degrees have no distance if they are equal, and only then. -/
theorem distance_le_zero_iff (hx : x.inUnit = true) (hy : y.inUnit = true) :
    x.distance y ≤ 0 ↔ (x == y) = true := by
  rw [(measures_distance hx hy).le_iff measures_zero, Nat.le_zero, rounded_eq_zero,
    beq_iff_units hx hy]
  exact ⟨Nat.eq_of_dist_eq_zero, Nat.dist_eq_zero⟩

/-! ## The largest of some degrees -/

theorem larger_eq (x y : Degree) : x.larger y = x ∨ x.larger y = y := by
  unfold larger
  split
  · exact .inl rfl
  · split
    · exact .inl rfl
    · exact .inr rfl

theorem larger_le_iff {z : Degree} (hx : IsNumber x) (hy : IsNumber y) :
    x.larger y ≤ z ↔ x ≤ z ∧ y ≤ z := by
  have hlarger : IsNumber (x.larger y) := hx.larger
  rw [le_iff, le_iff, le_iff, place_larger hx hy, max_le_iff]
  exact ⟨fun ⟨_, hz, h⟩ => ⟨⟨hx, hz, h.1⟩, hy, hz, h.2⟩,
    fun ⟨⟨_, hz, h⟩, _, _, h'⟩ => ⟨hlarger, hz, h, h'⟩⟩

theorem isNumber_foldl_larger (hx : IsNumber x) (ds : List Degree) : IsNumber (ds.foldl larger x) := by
  induction ds generalizing x with
  | nil => exact hx
  | cons d ds ih => exact ih hx.larger

/-- The largest of some numbers is at most a bound if all of them are. -/
theorem foldl_larger_le_iff {z : Degree} (hx : IsNumber x) {ds : List Degree}
    (hds : ∀ d ∈ ds, IsNumber d) : ds.foldl larger x ≤ z ↔ x ≤ z ∧ ∀ d ∈ ds, d ≤ z := by
  induction ds generalizing x with
  | nil => simp
  | cons d ds ih =>
    have hd := hds d (by simp)
    rw [List.foldl_cons, ih hx.larger fun e he => hds e (by simp [he]), larger_le_iff hx hd,
      List.forall_mem_cons, and_assoc]

/-- The largest of some degrees is one of them. -/
theorem foldl_larger_mem (x : Degree) (ds : List Degree) : ds.foldl larger x ∈ x :: ds := by
  induction ds generalizing x with
  | nil => simp
  | cons d ds ih =>
    have hmem := ih (x.larger d)
    rw [List.foldl_cons]
    rcases List.mem_cons.1 hmem with heq | hmem
    · rw [heq]
      rcases larger_eq x d with h | h <;> rw [h] <;> simp
    · simp [hmem]

/-- Of some degrees in `[0, 1]`, the largest is none below the others and one of them. -/
theorem foldl_larger_greatest {ds : List Degree} (hds : ∀ d ∈ ds, d.inUnit = true) :
    (∀ d ∈ ds, d ≤ ds.foldl larger 0) ∧ (ds ≠ [] → ds.foldl larger 0 ∈ ds) := by
  have hzero : IsNumber 0 := measures_zero.isNumber
  have hnumbers : ∀ d ∈ ds, IsNumber d := fun d hd => isNumber_of_inUnit (hds d hd)
  constructor
  · have hlargest := isNumber_foldl_larger hzero ds
    exact ((foldl_larger_le_iff hzero hnumbers).1 (le_iff.2 ⟨hlargest, hlargest, le_refl _⟩)).2
  · intro hne
    obtain ⟨d, rest, rfl⟩ := List.exists_cons_of_ne_nil hne
    have hd := hds d (by simp)
    have hfirst : larger 0 d = d := by
      have hnot : ¬ d < 0 := fun hlt =>
        absurd (lt_iff.1 hlt).2.2 (not_lt.2 (le_iff.1 (measures_zero.le_iff (measures_units hd).2 |>.2
          (Nat.zero_le _))).2.2)
      have hnumber : d.isNaN = false := isNumber_of_inUnit hd
      unfold larger
      rw [hnumber, if_neg Bool.false_ne_true, if_neg hnot]
    rw [List.foldl_cons, hfirst]
    exact foldl_larger_mem d rest

end Degree

end AnnotatedLogic
