import AnnotatedLogic.Proofs.Degree.Complement
import AnnotatedLogic.Rule.Threshold
/-!
# Counts and fractions

A threshold is compared with a count or with the fraction of two counts, both of them rounded to doubles.
They grow with the count all the same: the exact values do, and rounding is monotone. This needs counts
below the size of a machine word; only far beyond that a count becomes infinite, and the fraction of two
infinite counts is no number.

* `measures_ofNat`, `measures_fraction`: a count and the fraction of two counts, in units.
* `ofNat_le_ofNat`, `fraction_le_fraction`: so both grow with the count.
* `Threshold.Monotone.isSatisfied`: a threshold that asks for at least so much is still met when more
  members qualify.
-/

namespace AnnotatedLogic

namespace Degree

open Float.Model Float.Model.UnpackedFloat

/-! ## Counts -/

theorem whole_eq {k : Nat} (h : 52 + 1022 = k) : whole = 2 ^ k := by
  unfold whole
  rw [← Nat.pow_add, h]

/-- What is at least `1` has at least the exponent of `1`. -/
theorem le_exponent_of_whole_le {m k : Nat} (hlt : m < 2 ^ 53) (h : whole ≤ m * 2 ^ k) : 1022 ≤ k := by
  by_contra hk
  have hpow {j : Nat} (hj : k < j) : m * 2 ^ k < 2 ^ 52 * 2 ^ j :=
    mul_pow_lt_mul_pow hlt (Nat.le_refl _) hj
  exact absurd h (not_le.2 (hpow (not_le.1 hk)))

theorem rounded_count_le {n : Nat} (hn : n ≤ 2 ^ 64) : rounded (n * whole) ≤ 2 ^ 64 * whole := by
  have hpower {k : Nat} (hk : 52 + 1022 = k) : rounded (2 ^ 64 * whole) = 2 ^ 64 * whole := by
    rw [whole_eq hk, ← Nat.pow_add, ← Nat.one_mul (2 ^ (64 + k))]
    exact rounded_mul_pow (by decide) _
  exact (rounded_mono (Nat.mul_le_mul_right whole hn)).trans_eq (hpower rfl)

theorem whole_pos : 0 < whole := by
  have hpow (j : Nat) : 0 < 2 ^ 52 * 2 ^ j := Nat.mul_pos (Nat.two_pow_pos 52) (Nat.two_pow_pos j)
  exact hpow 1022

theorem count_lt_ceiling : 2 ^ 64 * whole < ceiling := by
  have hpow {i j k : Nat} (h : i + j < k) : 2 ^ i * (2 ^ 52 * 2 ^ j) < 2 ^ 52 * 2 ^ k := by
    rw [Nat.mul_left_comm, ← Nat.pow_add]
    exact Nat.mul_lt_mul_of_pos_left (Nat.pow_lt_pow_right (by decide) h) (Nat.two_pow_pos 52)
  unfold whole ceiling
  exact hpow (i := 64) (j := 1022) (k := 2046) (by decide)

theorem whole_le_rounded_count {n : Nat} (hn : 0 < n) : whole ≤ rounded (n * whole) := by
  have h := rounded_mono (Nat.le_mul_of_pos_left whole hn)
  rwa [rounded_whole] at h

/-- A product with `1` is the other factor, if that is not too small. -/
theorem Measures.mul_one {u : UnpackedFloat} {n : Nat} (h : Measures u n) (hn : n = 0 ∨ whole ≤ n) :
    Measures (UnpackedFloat.mul Format.binary64 u (1 : Degree).toModel.unpack) n := by
  rw [unpack_one]
  cases h with
  | zero s => exact .zero _
  | @finite m _ k e hm he hlt hfull hn' =>
    subst hn' he
    have hk : 1022 ≤ k := le_exponent_of_whole_le hlt
      (hn.resolve_left (Nat.mul_pos hm (Nat.two_pow_pos k)).ne')
    obtain ⟨j, rfl⟩ := Nat.exists_eq_add_of_le (show 52 ≤ k by omega)
    have hproduct : m * 2 ^ 52 * 2 ^ j = m * 2 ^ (52 + j) := by
      rw [Nat.mul_assoc, ← Nat.pow_add]
    have hexponent : ((52 + j : Nat) : Int) - 1074 + -52 = (j : Int) - 1074 := by omega
    have hrounded := measures_roundExact (d := m * 2 ^ 52) (j := j)
      (Nat.mul_pos hm (Nat.two_pow_pos 52)) (by
        unfold excess
        rw [log2_mul_pow (Nat.mul_pos hm (Nat.two_pow_pos 52)), log2_mul_pow hm]
        omega)
    rw [hproduct, rounded_mul_pow hlt, ← hexponent] at hrounded
    exact hrounded

theorem count_cases (n : Nat) : rounded (n * whole) = 0 ∨ whole ≤ rounded (n * whole) := by
  rcases Nat.eq_zero_or_pos n with rfl | hn
  · rw [Nat.zero_mul, rounded_zero]
    exact .inl rfl
  · exact .inr (whole_le_rounded_count hn)

/-- A count that is read like a numeral. -/
theorem measures_ofScientific {n : Nat} (hn : 0 < n) :
    Measures (UnpackedFloat.ofScientific Format.binary64 n 0) (rounded (n * whole)) := by
  have hbits : Format.binary64.mantissaBits = 53 := by decide
  have hrange : (2 : Int) ^ Format.binary64.exponentBits = 2048 := by decide
  have hnumeral : UnpackedFloat.ofScientific Format.binary64 n 0
      = roundWithAccuracy Format.binary64 .positive (n * 2 ^ 53) (-53) .exact := by
    unfold UnpackedFloat.ofScientific
    rw [dif_neg hn.ne', hrange, if_neg (by decide), if_neg (by omega), if_pos (Int.le_refl 0)]
    unfold UnpackedFloat.mul
    simp only [hbits, Nat.shiftLeft_eq, Int.toNat_zero, Nat.pow_zero, Nat.mul_one, Int.add_zero]
    rfl
  have hrounded {j : Nat} (hj : 52 + 1022 = 53 + j) :
      Measures (roundWithAccuracy Format.binary64 .positive (n * 2 ^ 53) ((j : Int) - 1074) .exact)
        (rounded (n * whole)) := by
    rw [whole_eq hj, Nat.pow_add, ← Nat.mul_assoc]
    refine measures_roundExact (Nat.mul_pos hn (Nat.two_pow_pos 53)) ?_
    unfold excess
    rw [log2_mul_pow (Nat.mul_pos hn (Nat.two_pow_pos 53)), log2_mul_pow hn]
    omega
  rw [hnumeral]
  exact hrounded (j := 1021) rfl

/-- A count, in units. -/
theorem measures_ofNat {n : Nat} (hn : n ≤ 2 ^ 64) :
    Measures (Float.ofNat n).toModel.unpack (rounded (n * whole)) := by
  have hceiling := (rounded_count_le hn).trans_lt count_lt_ceiling
  -- Counts of at most 53 bits go through a machine word, all others are read like numerals.
  by_cases hsmall : n < 2 ^ 53
  · have hproduct : Float.ofNat n = n.toUInt64.toFloat * 1 := by
      unfold Float.ofNat
      show Float.ofScientific n false 0 = _
      unfold Float.ofScientific
      rw [dif_pos ⟨hsmall, by decide⟩]
      rfl
    have hword : n.toUInt64.toNat = n := Nat.mod_eq_of_lt (hsmall.trans (by decide))
    have hnormal : Measures (UnpackedFloat.ofUInt64 Format.binary64 n.toUInt64)
        (rounded (n * whole)) := by
      unfold UnpackedFloat.ofUInt64 UnpackedFloat.ofNat UnpackedFloat.ofInt
      rw [hword]
      have h := measures_normalize n (52 + 1022)
      rwa [← whole_eq rfl] at h
    have hone := hnormal.mul_one (count_cases n)
    rw [hproduct]
    show Measures (UnpackedFloat.unpack Format.binary64 (UnpackedFloat.pack Format.binary64
      (UnpackedFloat.mul Format.binary64
        (UnpackedFloat.unpack Format.binary64 (UnpackedFloat.pack Format.binary64
          (UnpackedFloat.ofUInt64 Format.binary64 n.toUInt64))) (1 : Degree).toModel.unpack))) _
    rw [hnormal.unpack_pack hceiling, hone.unpack_pack hceiling]
    exact hone
  · have hnumeral : Float.ofNat n = .ofModel (.ofScientific n 0) := by
      unfold Float.ofNat
      show Float.ofScientific n false 0 = _
      unfold Float.ofScientific
      rw [dif_neg fun h => hsmall h.1]
      rfl
    have hread := measures_ofScientific (n := n) (by omega)
    rw [hnumeral]
    show Measures (UnpackedFloat.unpack Format.binary64 (UnpackedFloat.pack Format.binary64
      (UnpackedFloat.ofScientific Format.binary64 n 0))) _
    rw [hread.unpack_pack hceiling]
    exact hread

/-! ## Fractions -/

/-- The bits that division gives beside the integral quotient say how large the remainder is. -/
theorem divided_accuracyOfFraction (a : Nat) {b : Nat} (hb : 0 < b) :
    Divided (.ofMantissaAndAccuracy (a / b) (accuracyOfFraction (a % b) b)) a b := by
  unfold accuracyOfFraction
  split
  · next hexact =>
    refine ⟨rfl, ?_, ?_⟩
    all_goals
      show false = true ↔ _
      rw [hexact, Bool.false_eq_true, false_iff]
      omega
  · next hrest =>
    rcases Nat.lt_trichotomy (2 * (a % b)) b with h | h | h
    · rw [compare_lt_iff_lt.2 h]
      refine ⟨rfl, ?_, ?_⟩
      · exact iff_of_false Bool.false_ne_true (not_le.2 h)
      · exact iff_of_true rfl ⟨hrest, h.ne⟩
    · rw [compare_eq_iff_eq.2 h]
      refine ⟨rfl, ?_, ?_⟩
      · exact iff_of_true rfl h.ge
      · exact iff_of_false Bool.false_ne_true fun hsticky => hsticky.2 h
    · rw [compare_gt_iff_gt.2 h]
      refine ⟨rfl, ?_, ?_⟩
      · exact iff_of_true rfl h.le
      · exact iff_of_true rfl ⟨hrest, h.ne'⟩

/-- The dividend is shifted by so many bits that the quotient has at least 53 of them. -/
theorem divCore_eq {m m' k k' s j : Nat} (hs : s + m.log2 = 53 + m'.log2)
    (hj : j + (m'.log2 + k') = 1021 + (m.log2 + k)) :
    divCore Format.binary64 m ((k : Int) - 1074) m' ((k' : Int) - 1074)
      = (m * 2 ^ s / m', (j : Int) - 1074, accuracyOfFraction (m * 2 ^ s % m') m') := by
  have hmin : Format.binary64.minExponent = -1074 := by decide
  have hbits : Format.binary64.mantissaBits = 53 := by decide
  have htarget : min ((k : Int) - 1074 - ((k' : Int) - 1074)) (Format.binary64.targetExponent
      (totalExponent m ((k : Int) - 1074) - totalExponent m' ((k' : Int) - 1074)))
      = (j : Int) - 1074 := by
    unfold Format.targetExponent totalExponent
    rw [hmin, hbits]
    omega
  unfold divCore
  dsimp only
  rw [htarget, show ((k : Int) - 1074 - ((k' : Int) - 1074) - ((j : Int) - 1074)).toNat = s by omega,
    Nat.shiftLeft_eq]

/-- By these bits, the dividend is long enough for a quotient of 53 bits. -/
theorem mul_le_shifted {m m' s : Nat} (hm : 0 < m) (hs : s + m.log2 = 53 + m'.log2) :
    2 ^ 52 * m' ≤ m * 2 ^ s :=
  calc 2 ^ 52 * m'
      ≤ 2 ^ 52 * 2 ^ (m'.log2 + 1) := Nat.mul_le_mul_left _ Nat.lt_log2_self.le
    _ = 2 ^ (m.log2 + s) := by
      rw [← Nat.pow_add]
      congr 1
      omega
    _ ≤ m * 2 ^ s := by
      rw [← log2_mul_pow hm]
      exact Nat.log2_self_le (Nat.mul_pos hm (Nat.two_pow_pos s)).ne'

theorem roundedQuotient_zero {b : Nat} (hb : 0 < b) : roundedQuotient 0 b = 0 := by
  unfold roundedQuotient nearestQuotient
  rw [Nat.zero_mod, if_pos (Nat.mul_pos hb (Nat.two_pow_pos _)), Nat.zero_div, Nat.zero_mul]

/-- A quotient of counts, in units. -/
theorem Measures.div {u v : UnpackedFloat} {a b : Nat} (hu : Measures u a) (hv : Measures v b)
    (hb : 0 < b) (ha : a = 0 ∨ whole ≤ a) (hab : a ≤ b) (hlarge : b ≤ 2 ^ 64 * whole) :
    Measures (UnpackedFloat.div Format.binary64 u v) (roundedQuotient (a * whole) b) := by
  cases hv with
  | zero s => exact absurd hb (Nat.lt_irrefl 0)
  | @finite m' _ k' e' hm' he' hlt' hfull' hn' =>
    cases hu with
    | zero s =>
      rw [Nat.zero_mul, roundedQuotient_zero hb]
      exact .zero _
    | @finite m _ k e hm he hlt hfull hn =>
      subst hn hn' he he'
      have hpos := Nat.mul_pos hm (Nat.two_pow_pos k)
      have hpos' := Nat.mul_pos hm' (Nat.two_pow_pos k')
      have hlog : m.log2 ≤ 52 := Nat.le_of_lt_succ ((Nat.log2_lt hm.ne').2 hlt)
      have hlogs := log2_mono hab
      rw [log2_mul_pow hm, log2_mul_pow hm'] at hlogs
      have hrange {t : Nat} (ht : 52 + 1022 = t) :
          t ≤ m.log2 + k ∧ m'.log2 + k' ≤ 64 + t := by
        rw [← log2_mul_pow hm, ← log2_mul_pow hm']
        rw [whole_eq ht] at ha hlarge
        refine ⟨(Nat.le_log2 hpos.ne').2 (ha.resolve_left hpos.ne'), ?_⟩
        rw [← Nat.pow_add] at hlarge
        have hpower := log2_mono hlarge
        rwa [Nat.log2_two_pow] at hpower
      obtain ⟨hlow, hhigh⟩ := hrange rfl
      obtain ⟨s, hs⟩ : ∃ s, s + m.log2 = 53 + m'.log2 := ⟨_, Nat.sub_add_cancel (by omega)⟩
      obtain ⟨j, hj⟩ : ∃ j, j + (m'.log2 + k') = 1021 + (m.log2 + k) :=
        ⟨_, Nat.sub_add_cancel (by omega)⟩
      have hwhole {t : Nat} (ht : 52 + 1022 = t) :
          m * 2 ^ k * whole = m * 2 ^ s * 2 ^ j * 2 ^ k' := by
        rw [whole_eq ht, Nat.mul_assoc, Nat.mul_assoc, Nat.mul_assoc, ← Nat.pow_add, ← Nat.pow_add,
          ← Nat.pow_add]
        congr 2
        omega
      have hshifted := mul_le_shifted hm hs
      have hle : m' ≤ m * 2 ^ s := (Nat.le_mul_of_pos_left m' (by decide)).trans hshifted
      have hquotient : 2 ^ 52 ≤ m * 2 ^ s / m' := (Nat.le_div_iff_mul_le hm').2 hshifted
      have hbits : j ≤ excess (m * 2 ^ s / m' * 2 ^ j) := by
        have hlong := (Nat.le_log2 (by omega)).2 hquotient
        unfold excess
        rw [log2_mul_pow (by omega)]
        omega
      have hrounded := measures_roundWithAccuracy hm' hle (divided_accuracyOfFraction _ hm') hbits
      rw [hwhole rfl, roundedQuotient_mul_right _ _ (Nat.two_pow_pos k')]
      unfold UnpackedFloat.div
      dsimp only
      rw [divCore_eq hs hj]
      exact hrounded

/-- The fraction of two counts, in units. -/
theorem measures_fraction {n p : Nat} (hp : 0 < p) (hnp : n ≤ p) (hlarge : p ≤ 2 ^ 64) :
    Measures (Float.ofNat n / Float.ofNat p).toModel.unpack
      (roundedQuotient (rounded (n * whole) * whole) (rounded (p * whole))) := by
  have hb : 0 < rounded (p * whole) := whole_pos.trans_le (whole_le_rounded_count hp)
  have hle : rounded (n * whole) ≤ rounded (p * whole) := rounded_mono (Nat.mul_le_mul_right whole hnp)
  have hdiv := (measures_ofNat (hnp.trans hlarge)).div (measures_ofNat hlarge) hb (count_cases n) hle
    (rounded_count_le hlarge)
  have hone : roundedQuotient (rounded (n * whole) * whole) (rounded (p * whole)) ≤ whole := by
    refine (roundedQuotient_mono (Nat.mul_le_mul_right whole hle) _).trans_eq ?_
    have hself := roundedQuotient_mul_right whole 1 hb
    rwa [Nat.one_mul, Nat.mul_comm, roundedQuotient_one, rounded_whole] at hself
  show Measures (UnpackedFloat.unpack Format.binary64 (UnpackedFloat.pack Format.binary64 _)) _
  rw [hdiv.unpack_pack (hone.trans_lt whole_lt_ceiling)]
  exact hdiv

/-- Counts grow, as doubles. -/
theorem ofNat_le_ofNat {n m : Nat} (h : n ≤ m) (hm : m ≤ 2 ^ 64) : Float.ofNat n ≤ Float.ofNat m :=
  ((measures_ofNat (h.trans hm)).le_iff (measures_ofNat hm)).2
    (rounded_mono (Nat.mul_le_mul_right whole h))

/-- Fractions of one population grow, as doubles. -/
theorem fraction_le_fraction {n m p : Nat} (h : n ≤ m) (hm : m ≤ p) (hp : 0 < p) (hlarge : p ≤ 2 ^ 64) :
    Float.ofNat n / Float.ofNat p ≤ Float.ofNat m / Float.ofNat p :=
  ((measures_fraction hp (h.trans hm) hlarge).le_iff (measures_fraction hp hm hlarge)).2
    (roundedQuotient_mono
      (Nat.mul_le_mul_right whole (rounded_mono (Nat.mul_le_mul_right whole h))) _)

end Degree

/-! ## Thresholds -/

/-- The threshold asks for at least, or for more than, so many members of the whole population. -/
structure Threshold.Monotone (t : Threshold) : Prop where
  comparison : t.comparison = .greaterEqual ∨ t.comparison = .greater
  subset : t.subset = .total

/-- What is large enough stays so when it grows. -/
theorem Comparison.holds_of_le {c : Comparison} (hc : c = .greaterEqual ∨ c = .greater)
    {x y value : Degree} (hle : x ≤ y) (h : c.holds x value = true) : c.holds y value = true := by
  obtain ⟨hx, hy, hplace⟩ := Degree.le_iff.1 hle
  rcases hc with rfl | rfl
  · obtain ⟨hvalue, -, hlow⟩ := Degree.le_iff.1 (of_decide_eq_true h)
    exact decide_eq_true (Degree.le_iff.2 ⟨hvalue, hy, hlow.trans hplace⟩)
  · obtain ⟨hvalue, -, hlow⟩ := Degree.lt_iff.1 (of_decide_eq_true h)
    exact decide_eq_true (Degree.lt_iff.2 ⟨hvalue, hy, hlow.trans_le hplace⟩)

/-- A threshold that is met is still met when more members qualify. The population is one that a machine
can count. -/
theorem Threshold.Monotone.isSatisfied {t : Threshold} (ht : t.Monotone) {population n m : Nat}
    (hnm : n ≤ m) (hm : m ≤ population) (hlarge : population ≤ 2 ^ 64)
    (h : t.isSatisfied population n = true) : t.isSatisfied population m = true := by
  obtain ⟨comparison, quantifier, subset, value⟩ := t
  unfold Threshold.isSatisfied at h ⊢
  cases quantifier with
  | number =>
    exact Comparison.holds_of_le ht.comparison (Degree.ofNat_le_ofNat hnm (hm.trans hlarge)) h
  | percent =>
    obtain ⟨hpopulation, hholds⟩ := Bool.and_eq_true_iff.1 h
    have hpos : 0 < population := Nat.pos_of_ne_zero (bne_iff_ne.1 hpopulation)
    exact Bool.and_eq_true_iff.2 ⟨hpopulation,
      Comparison.holds_of_le ht.comparison (Degree.fraction_le_fraction hnm hm hpos hlarge) hholds⟩

end AnnotatedLogic
