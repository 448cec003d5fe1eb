import AnnotatedLogic.Proofs.Degree.Rounding
/-!
# The complement of a degree

`1 - x` is rounded, yet it never leaves `[0, 1]` and it turns the order round: the exact difference
does, and rounding is monotone and keeps `1`.

* `Measures.unpack_pack`: a double that is not too large is not changed by being stored.
* `Measures.place_le_iff`: measured doubles stand in the order of their numbers of units.
* `inUnit_iff`: the degrees in `[0, 1]` are those of at most `whole` units.
* `measures_one_sub`: the complement, in units. So `inUnit_one_sub` and `one_sub_le_one_sub`.
* `units`: the exact value of a degree. `le_iff_units` compares degrees by it, and `Exact` says of which
  ones the complement is not rounded.
-/

namespace AnnotatedLogic

namespace Degree

open Float.Model Float.Model.UnpackedFloat

/-- How many units `1` is. -/
def whole : Nat := 2 ^ 52 * 2 ^ 1022

theorem rounded_whole : rounded whole = whole := rounded_mul_pow (by decide) 1022

theorem rounded_le_whole {n : Nat} (h : n ≤ whole) : rounded n ≤ whole := by
  have := rounded_mono h
  rwa [rounded_whole] at this

theorem mul_pow_lt_mul_pow {m m' k k' : Nat} (hlt : m < 2 ^ 53) (hfull : 2 ^ 52 ≤ m')
    (h : k < k') : m * 2 ^ k < m' * 2 ^ k' :=
  (Nat.mul_lt_mul_of_pos_right hlt (Nat.two_pow_pos k)).trans_le
    (mul_pow_le_mul_pow (Nat.le_refl _) hfull h)

theorem exponent_le_of_le_whole {m k : Nat} (hfull : 2 ^ 52 ≤ m ∨ k = 0)
    (h : m * 2 ^ k ≤ whole) : k ≤ 1022 := by
  by_contra hk
  have hm : 2 ^ 52 ≤ m := hfull.resolve_right (by omega)
  exact absurd h (not_le.2 (mul_pow_lt_mul_pow (by decide) hm (not_le.1 hk)))

/-- How many units the smallest power of two is that is too large for a double. -/
def ceiling : Nat := 2 ^ 52 * 2 ^ 2046

theorem whole_lt_ceiling : whole < ceiling := by
  have hpow {j k : Nat} (h : j < k) : 2 ^ 52 * 2 ^ j < 2 ^ 52 * 2 ^ k :=
    Nat.mul_lt_mul_of_pos_left (Nat.pow_lt_pow_right (by decide) h) (Nat.two_pow_pos 52)
  exact hpow (j := 1022) (k := 2046) (by decide)

theorem exponent_lt_of_lt_ceiling {m k : Nat} (hfull : 2 ^ 52 ≤ m ∨ k = 0)
    (h : m * 2 ^ k < ceiling) : k < 2046 := by
  by_contra hk
  have hm : 2 ^ 52 ≤ m := hfull.resolve_right (by omega)
  have hpow {j : Nat} (hj : j ≤ k) : 2 ^ 52 * 2 ^ j ≤ m * 2 ^ k :=
    Nat.mul_le_mul hm (Nat.pow_le_pow_right (by decide) hj)
  exact absurd h (not_lt.2 (hpow (not_lt.1 hk)))

/-! ## Stored doubles -/

theorem finite_congr {s s' : Sign} {m m' : Nat} {e e' : Int} {h : 0 < m} {h' : 0 < m'}
    (hs : s = s') (hm : m = m') (he : e = e') :
    UnpackedFloat.finite s m e h = UnpackedFloat.finite s' m' e' h' := by
  subst hs hm he
  rfl

/-- The implicit bit of a normal double stands before the stored ones. -/
theorem toNat_implicitBit (m : BitVec 52) : (1#1 ++ m).toNat = 2 ^ 52 + m.toNat := by
  rw [BitVec.toNat_append, ← Nat.shiftLeft_add_eq_or_of_lt m.isLt]
  rfl

/-- A finite double that was stored has the mantissa and the exponent of a `Measures`. -/
theorem unpack_finite {b : BitVec Format.binary64.numBits} {s : Sign} {m : Nat} {e : Int}
    {hm : 0 < m} (h : UnpackedFloat.unpack Format.binary64 b = .finite s m e hm) :
    ∃ k : Nat, e = (k : Int) - 1074 ∧ m < 2 ^ 53 ∧ (2 ^ 52 ≤ m ∨ k = 0) := by
  by_cases he : unpackExponent b = -1#_
  · by_cases hz : unpackMantissa b = 0#_
    · cases ((if_pos he).trans (if_pos hz)).symm.trans h
    · cases ((if_pos he).trans (if_neg hz)).symm.trans h
  · by_cases hz : unpackExponent b = 0#_
    · by_cases hmz : unpackMantissa b = 0#_
      · cases ((if_neg he).trans ((if_pos hz).trans (dif_pos hmz))).symm.trans h
      · -- Subnormal.
        obtain ⟨-, rfl, rfl⟩ := UnpackedFloat.finite.inj
          (((if_neg he).trans ((if_pos hz).trans (dif_neg hmz))).symm.trans h)
        refine ⟨0, ?_, lt_trans (BitVec.isLt _) (by decide), .inr rfl⟩
        rw [hz]
        rfl
    · -- Normal.
      obtain ⟨-, rfl, rfl⟩ := UnpackedFloat.finite.inj
        (((if_neg he).trans (if_neg hz)).symm.trans h)
      have hpos : 0 < (unpackExponent b).toNat :=
        Nat.pos_of_ne_zero fun h0 => hz (BitVec.eq_of_toNat_eq h0)
      have hbias : Format.binary64.exponentBias = 1023 := by decide
      have hlt : (unpackMantissa b).toNat < 2 ^ 52 := (unpackMantissa b).isLt
      refine ⟨(unpackExponent b).toNat - 1, ?_, ?_, .inl ?_⟩
      · rw [hbias]
        show ((unpackExponent b).toNat : Int) - (1023 + 52) = _
        omega
      · rw [toNat_implicitBit]
        omega
      · rw [toNat_implicitBit]
        omega

private theorem ofBitVec_unpackSign {spec : Format} {s : Sign} {e m} :
    Sign.ofBitVec (unpackSign (packComponents spec s e m)) = s := by
  have hbits : unpackSign (packComponents spec s e m) = s.toBitVec := by
    apply BitVec.eq_of_getLsbD_eq
    intro i hi
    obtain rfl : i = 0 := by omega
    delta unpackSign packComponents
    simp [BitVec.getLsbD_append, BitVec.getElem_append]
  rw [hbits]
  cases s <;> rfl

private theorem unpack_normal {s : Sign} {e : BitVec 11} {m : BitVec 52} (hne : e ≠ -1#_)
    (hz : e ≠ 0#_) :
    UnpackedFloat.unpack Format.binary64 (packComponents Format.binary64 s e m)
      = .finite s (1#1 ++ m).toNat (e.toNat - 1075) (by rw [toNat_implicitBit]; omega) := by
  generalize hb : packComponents Format.binary64 s e m = b
  have he : unpackExponent b = e := hb ▸ unpackExponent_packComponents
  have hm : unpackMantissa b = m := hb ▸ unpackMantissa_packComponents
  refine (if_neg (by rwa [he])).trans ((if_neg (by rwa [he])).trans (finite_congr ?_ ?_ ?_))
  · exact hb ▸ ofBitVec_unpackSign
  · rw [hm]
  · rw [he]
    rfl

private theorem unpack_subnormal {s : Sign} {m : BitVec 52} (hm : 0 < m.toNat) :
    UnpackedFloat.unpack Format.binary64 (packComponents Format.binary64 s 0#_ m)
      = .finite s m.toNat (-1074) hm := by
  generalize hb : packComponents Format.binary64 s 0#_ m = b
  have he : unpackExponent b = 0#_ := hb ▸ unpackExponent_packComponents
  have hmantissa : unpackMantissa b = m := hb ▸ unpackMantissa_packComponents
  have hz : m ≠ 0#_ := by
    rintro rfl
    exact absurd hm (by decide)
  refine (if_neg (by rw [he]; decide)).trans
    ((if_pos he).trans ((dif_neg (by rwa [hmantissa])).trans (finite_congr ?_ ?_ ?_)))
  · exact hb ▸ ofBitVec_unpackSign
  · rw [hmantissa]
  · rw [he]
    rfl

/-- Packing loses nothing of a double that is not too large. -/
theorem Measures.unpack_pack {u : UnpackedFloat} {n : Nat} (h : Measures u n) (hn : n < ceiling) :
    UnpackedFloat.unpack Format.binary64 (UnpackedFloat.pack Format.binary64 u) = u := by
  cases h with
  | zero s => cases s <;> rfl
  | @finite m _ k e hm he hlt hfull hn' =>
    have hk : k < 2046 := exponent_lt_of_lt_ceiling hfull (hn' ▸ hn)
    have hbiased : (e + Format.binary64.exponentBias
        + Format.binary64.mantissaBitsWithoutImplicit).toNat = k + 1 := by
      have hbias : Format.binary64.exponentBias = 1023 := by decide
      rw [hbias, he]
      show ((k : Int) - 1074 + 1023 + 52).toNat = k + 1
      omega
    have hpack : UnpackedFloat.pack Format.binary64 (.finite .positive m e hm)
        = if m.log2 + 1 = 53 then
            packComponents Format.binary64 .positive (BitVec.ofNat _ (k + 1)) (BitVec.ofNat _ m)
          else packComponents Format.binary64 .positive 0#_ (BitVec.ofNat _ m) := by
      rw [← hbiased]
      exact if_neg (by rw [hbiased]; show ¬ 2048 ≤ k + 1 + 1; omega)
    have hlog : m.log2 + 1 = 53 ↔ 2 ^ 52 ≤ m := by
      rw [← Nat.le_log2 hm.ne']
      have := (Nat.log2_lt hm.ne').2 hlt
      omega
    rw [hpack]
    by_cases hfit : 2 ^ 52 ≤ m
    · -- Normal.
      rw [if_pos (hlog.2 hfit)]
      have hexponent : (BitVec.ofNat 11 (k + 1)).toNat = k + 1 :=
        Nat.mod_eq_of_lt (show k + 1 < 2048 by omega)
      rw [unpack_normal]
      · refine finite_congr rfl ?_ ?_
        · rw [toNat_implicitBit, BitVec.toNat_ofNat]
          omega
        · rw [hexponent, he]
          omega
      · intro h
        have := congrArg BitVec.toNat h
        rw [hexponent] at this
        have hmax : (-1#11).toNat = 2047 := by decide
        omega
      · intro h
        have := congrArg BitVec.toNat h
        rw [hexponent] at this
        exact Nat.succ_ne_zero k this
    · -- Subnormal.
      rw [if_neg fun h => hfit (hlog.1 h)]
      have hmantissa : (BitVec.ofNat 52 m).toNat = m := Nat.mod_eq_of_lt (not_le.1 hfit)
      rw [unpack_subnormal (by rw [hmantissa]; exact hm)]
      refine finite_congr rfl hmantissa ?_
      rw [he, hfull.resolve_left hfit]
      rfl

/-! ## Order and units -/

/-- Measured doubles stand in the order of their measures. -/
theorem Measures.place_le_iff {u u' : UnpackedFloat} {n n' : Nat} (h : Measures u n)
    (h' : Measures u' n') : unpackedPlace u ≤ unpackedPlace u' ↔ n ≤ n' := by
  cases h with
  | zero s =>
    cases h' with
    | zero t => exact iff_of_true (le_refl _) (Nat.le_refl _)
    | finite => exact iff_of_true (Prod.Lex.le_iff.2 (.inl Int.zero_lt_one)) (Nat.zero_le _)
  | @finite m _ k e hm he hlt hfull hn =>
    have hpos : 0 < n := hn ▸ Nat.mul_pos hm (Nat.two_pow_pos k)
    cases h' with
    | zero t =>
      refine iff_of_false ?_ (not_le.2 hpos)
      rw [not_le]
      exact Prod.Lex.lt_iff.2 (.inl Int.zero_lt_one)
    | @finite m' _ k' e' hm' he' hlt' hfull' hn' =>
      subst hn hn' he he'
      have hplace : unpackedPlace (.finite .positive m ((k : Int) - 1074) hm)
          ≤ unpackedPlace (.finite .positive m' ((k' : Int) - 1074) hm')
          ↔ k < k' ∨ k = k' ∧ m ≤ m' := by
        show toLex (1, toLex ((k : Int) - 1074, (m : Int)))
          ≤ toLex (1, toLex ((k' : Int) - 1074, (m' : Int))) ↔ _
        simp [Prod.Lex.le_iff]
      rw [hplace]
      rcases Nat.lt_trichotomy k k' with hk | rfl | hk
      · refine iff_of_true (.inl hk) (Nat.le_of_lt (mul_pow_lt_mul_pow hlt ?_ hk))
        exact hfull'.resolve_right (Nat.ne_zero_of_lt hk)
      · simp [Nat.mul_le_mul_right_iff (Nat.two_pow_pos k)]
      · refine iff_of_false (by omega) (not_le.2 (mul_pow_lt_mul_pow hlt' ?_ hk))
        exact hfull.resolve_right (Nat.ne_zero_of_lt hk)

theorem Measures.isNumber {x : Degree} {n : Nat} (h : Measures x.toModel.unpack n) :
    IsNumber x := by
  show x.toModel.unpack.isNaN = false
  generalize x.toModel.unpack = u at h
  cases h <;> rfl

theorem Measures.le_iff {x y : Degree} {n n' : Nat} (h : Measures x.toModel.unpack n)
    (h' : Measures y.toModel.unpack n') : x ≤ y ↔ n ≤ n' := by
  rw [Degree.le_iff, ← h.place_le_iff h']
  exact ⟨fun hle => hle.2.2, fun hle => ⟨h.isNumber, h'.isNumber, hle⟩⟩

theorem measures_zero : Measures (0 : Degree).toModel.unpack 0 := by
  rw [show (0 : Degree).toModel.unpack = .zero .positive by rfl]
  exact .zero _

theorem unpack_one :
    (1 : Degree).toModel.unpack = .finite .positive (2 ^ 52) (-52) (by decide) := rfl

theorem measures_one : Measures (1 : Degree).toModel.unpack whole := by
  rw [unpack_one]
  exact .finite _ (k := 1022) (by decide) (by decide) (.inl (Nat.le_refl _)) rfl

/-- The degrees in `[0, 1]` are the doubles of at most `whole` units. -/
theorem inUnit_iff {x : Degree} :
    x.inUnit = true ↔ ∃ n ≤ whole, Measures x.toModel.unpack n := by
  unfold inUnit
  rw [Bool.and_eq_true, decide_eq_true_iff, decide_eq_true_iff]
  constructor
  · rintro ⟨h0, h1⟩
    -- What is no number, negative or infinite fails a comparison.
    have hlow := (le_iff.1 h0).2.2
    have hup := (le_iff.1 h1).2.2
    have hnumber : x.toModel.unpack.isNaN = false := (le_iff.1 h0).2.1
    have hx : ∃ n, Measures x.toModel.unpack n := by
      unfold place at hlow hup
      cases hu : x.toModel.unpack with
      | notANumber => rw [hu] at hnumber; cases hnumber
      | infinity s =>
        rw [hu] at hlow hup
        cases s with
        | positive => exact absurd hup (by decide)
        | negative => exact absurd hlow (by decide)
      | zero s => exact ⟨0, .zero s⟩
      | finite s m e hm =>
        cases s with
        | positive =>
          obtain ⟨k, he, hlt, hfull⟩ := unpack_finite hu
          exact ⟨_, .finite hm he hlt hfull rfl⟩
        | negative =>
          rw [hu] at hlow
          exact absurd hlow (not_le.2 (Prod.Lex.lt_iff.2 (.inl (show (-1 : Int) < 0 by decide))))
    obtain ⟨n, hn⟩ := hx
    exact ⟨n, (hn.le_iff measures_one).1 h1, hn⟩
  · rintro ⟨n, hle, hn⟩
    exact ⟨(measures_zero.le_iff hn).2 (Nat.zero_le n), (hn.le_iff measures_one).2 hle⟩

/-! ## The complement -/

/-- The exact difference from `1`, before it is stored. -/
theorem Measures.sub_from_one {u : UnpackedFloat} {n : Nat} (h : Measures u n) (hn : n ≤ whole) :
    Measures (UnpackedFloat.sub Format.binary64 (1 : Degree).toModel.unpack u)
      (rounded (whole - n)) := by
  rw [unpack_one]
  cases h with
  | zero s =>
    rw [Nat.sub_zero, rounded_whole]
    exact .finite _ (k := 1022) (by decide) (by decide) (.inl (Nat.le_refl _)) rfl
  | @finite m _ k e hm he hlt hfull hn' =>
    subst hn' he
    have hk : k ≤ 1022 := exponent_le_of_le_whole hfull hn
    have hwhole : whole = 2 ^ 52 * 2 ^ (1022 - k) * 2 ^ k := by
      rw [Nat.mul_assoc, ← Nat.pow_add, Nat.sub_add_cancel hk, whole]
    have hle : m ≤ 2 ^ 52 * 2 ^ (1022 - k) := by
      rw [hwhole] at hn
      exact Nat.le_of_mul_le_mul_right hn (Nat.two_pow_pos k)
    have hsub : UnpackedFloat.sub Format.binary64 (.finite .positive (2 ^ 52) (-52) (by decide))
          (.finite .positive m ((k : Int) - 1074) hm)
        = UnpackedFloat.normalize Format.binary64 ((2 ^ 52 * 2 ^ (1022 - k) - m : Nat) : Int)
            ((k : Int) - 1074) .positive := by
      unfold UnpackedFloat.sub decreaseExponent
      dsimp only
      rw [min_eq_right (show (k : Int) - 1074 ≤ -52 by omega), Int.sub_self,
        show (-52 - ((k : Int) - 1074)).toNat = 1022 - k by omega, Nat.shiftLeft_eq]
      rw [Int.ofNat_sub hle]
      rfl
    rw [hsub, hwhole, ← Nat.sub_mul]
    exact measures_normalize _ k

/-- The complement, in units. -/
theorem measures_one_sub {x : Degree} {n : Nat} (h : Measures x.toModel.unpack n)
    (hn : n ≤ whole) : Measures (1 - x).toModel.unpack (rounded (whole - n)) := by
  have hsub := h.sub_from_one hn
  show Measures (UnpackedFloat.unpack Format.binary64 (UnpackedFloat.pack Format.binary64 _)) _
  rw [hsub.unpack_pack ((rounded_le_whole (Nat.sub_le whole n)).trans_lt whole_lt_ceiling)]
  exact hsub

theorem inUnit_one_sub {x : Degree} (h : x.inUnit = true) : (1 - x).inUnit = true := by
  obtain ⟨n, hn, hx⟩ := inUnit_iff.1 h
  exact inUnit_iff.2 ⟨_, rounded_le_whole (Nat.sub_le whole n), measures_one_sub hx hn⟩

/-- The complement turns the order round. -/
theorem one_sub_le_one_sub {x y : Degree} (hx : x.inUnit = true) (hy : y.inUnit = true)
    (h : x ≤ y) : 1 - y ≤ 1 - x := by
  obtain ⟨n, hn, hx⟩ := inUnit_iff.1 hx
  obtain ⟨m, hm, hy⟩ := inUnit_iff.1 hy
  rw [(measures_one_sub hy hm).le_iff (measures_one_sub hx hn)]
  exact rounded_mono (Nat.sub_le_sub_left ((hx.le_iff hy).1 h) whole)

/-! ## Exact values -/

/-- How many units a double is, if it is one of the nonnegative numbers. -/
def units (x : Degree) : Nat :=
  match x.toModel.unpack with
  | .finite .positive m e _ => m * 2 ^ (e + 1074).toNat
  | _ => 0

theorem Measures.units_eq {x : Degree} {n : Nat} (h : Measures x.toModel.unpack n) : x.units = n := by
  unfold units
  cases hu : x.toModel.unpack with
  | zero s =>
    rw [hu] at h
    cases h
    rfl
  | finite s m e hm =>
    rw [hu] at h
    cases h with
    | @finite _ _ k _ _ he _ _ hn =>
      subst hn he
      show m * 2 ^ ((k : Int) - 1074 + 1074).toNat = m * 2 ^ k
      rw [Int.sub_add_cancel, Int.toNat_natCast]
  | infinity s => rw [hu] at h; cases h
  | notANumber => rw [hu] at h; cases h

theorem measures_units {x : Degree} (h : x.inUnit = true) :
    x.units ≤ whole ∧ Measures x.toModel.unpack x.units := by
  obtain ⟨n, hn, hx⟩ := inUnit_iff.1 h
  rw [hx.units_eq]
  exact ⟨hn, hx⟩

/-- Degrees stand in the order of their values. -/
theorem le_iff_units {x y : Degree} (hx : x.inUnit = true) (hy : y.inUnit = true) :
    x ≤ y ↔ x.units ≤ y.units :=
  (measures_units hx).2.le_iff (measures_units hy).2

theorem units_one_sub {x : Degree} (h : x.inUnit = true) : (1 - x).units = rounded (whole - x.units) := by
  obtain ⟨hle, hx⟩ := measures_units h
  exact (measures_one_sub hx hle).units_eq

/-- The value of a double is not rounded again. -/
theorem Measures.rounded_eq {u : UnpackedFloat} {n : Nat} (h : Measures u n) : rounded n = n := by
  cases h with
  | zero s => exact rounded_zero
  | finite _ _ hlt _ hn =>
    rw [hn]
    exact rounded_mul_pow hlt _

/-- The complement of the degree is not rounded: both add up to `1` exactly. -/
def Exact (x : Degree) : Prop := x.units + (1 - x).units = whole

instance (x : Degree) : Decidable x.Exact := inferInstanceAs (Decidable (_ = _))

theorem Exact.one_sub {x : Degree} (h : x.Exact) (hx : x.inUnit = true) : Degree.Exact (1 - x) := by
  unfold Exact at h ⊢
  rw [units_one_sub (inUnit_one_sub hx), show whole - (1 - x).units = x.units by omega,
    (measures_units hx).2.rounded_eq]
  omega

end Degree

end AnnotatedLogic
