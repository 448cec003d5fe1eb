import AnnotatedLogic.Proofs.Degree.Order
import Mathlib.Algebra.Order.Group.Nat
import Mathlib.Tactic.Ring
/-!
# Rounding of degrees

A nonnegative double is a whole number of units, where the unit is the smallest positive double,
`2 ^ -1074`. The exact difference of two doubles is such a number too, and what is kept of it is
`rounded`: its 53 highest bits, to the nearest.

* `nearestQuotient`: division to the nearest integer. `rounded` and `roundedQuotient` keep 53 bits of a
  number and of a quotient; all of them are monotone.
* `Divided`: what the round bit and the sticky bit say of the remainder of a division, so
  `Divided.roundedMantissa`: the mantissa is rounded to `nearestQuotient`.
* `Measures`: a nonnegative double and how many units it is.
* `measures_round`: a positive number of units is rounded to `rounded`.
-/

namespace AnnotatedLogic

namespace Degree

open Float.Model Float.Model.UnpackedFloat

/-! ## Division to the nearest -/

/-- `a / b` to the nearest integer; of two that are as near, the even one. -/
def nearestQuotient (a b : Nat) : Nat :=
  if 2 * (a % b) < b then a / b
  else if 2 * (a % b) = b then a / b + a / b % 2
  else a / b + 1

theorem div_le_nearestQuotient (a b : Nat) : a / b ≤ nearestQuotient a b := by
  unfold nearestQuotient
  split
  · exact Nat.le_refl _
  · split <;> omega

theorem nearestQuotient_le_succ (a b : Nat) : nearestQuotient a b ≤ a / b + 1 := by
  unfold nearestQuotient
  split
  · omega
  · split <;> omega

theorem nearestQuotient_mono {a a' : Nat} (h : a ≤ a') (b : Nat) :
    nearestQuotient a b ≤ nearestQuotient a' b := by
  rcases Nat.lt_or_eq_of_le (Nat.div_le_div_right h (c := b)) with hlt | heq
  · exact (nearestQuotient_le_succ a b).trans (hlt.trans_le (div_le_nearestQuotient a' b))
  · -- Of one quotient, the remainders decide.
    have hmod : a % b ≤ a' % b := by
      have ha := Nat.div_add_mod a b
      have ha' := Nat.div_add_mod a' b
      rw [← heq] at ha'
      omega
    unfold nearestQuotient
    rw [← heq]
    split
    · split
      · exact Nat.le_refl _
      · split <;> omega
    · split
      · split
        · omega
        · split <;> omega
      · split
        · omega
        · split <;> omega

/-- Common factors make no difference. -/
theorem nearestQuotient_mul_right (a b : Nat) {c : Nat} (hc : 0 < c) :
    nearestQuotient (a * c) (b * c) = nearestQuotient a b := by
  unfold nearestQuotient
  simp only [Nat.mul_div_mul_right _ _ hc, Nat.mul_mod_mul_right, ← Nat.mul_assoc,
    Nat.mul_lt_mul_right hc, Nat.mul_left_inj hc.ne']

@[simp] theorem nearestQuotient_one (a : Nat) : nearestQuotient a 1 = a := by
  simp [nearestQuotient, Nat.mod_one]

/-- What divides leaves nothing to round. -/
theorem nearestQuotient_mul_self (a : Nat) {c : Nat} (hc : 0 < c) :
    nearestQuotient (a * c) c = a := by
  have h := nearestQuotient_mul_right a 1 hc
  rwa [Nat.one_mul, nearestQuotient_one] at h

/-! ## The bits that are shifted out -/

/-- The mantissa is `a / b`, and the other two bits tell the remainder apart from nothing and from one
half. -/
structure Divided (em : ExtendedMantissa) (a b : Nat) : Prop where
  mantissa : em.mantissa = a / b
  roundBit : em.roundBit = true ↔ b ≤ 2 * (a % b)
  stickyBit : em.stickyBit = true ↔ a % b ≠ 0 ∧ 2 * (a % b) ≠ b

/-- What no bit has been shifted out of yet. -/
theorem divided_exact (n : Nat) : Divided (.ofMantissaAndAccuracy n .exact) n 1 := by
  refine ⟨(Nat.div_one n).symm, ?_, ?_⟩
  all_goals
    rw [Nat.mod_one]
    show false = true ↔ _
    rw [Bool.false_eq_true, false_iff]
    omega

theorem Divided.shiftRightOne {em : ExtendedMantissa} {a b : Nat} (hb : 0 < b)
    (h : Divided em a b) : Divided em.shiftRightOne a (b * 2) := by
  have hmod : a % (b * 2) = a % b + b * (a / b % 2) := Nat.mod_mul
  have hr : a % b < b := Nat.mod_lt _ hb
  constructor
  case mantissa =>
    show em.mantissa / 2 = a / (b * 2)
    rw [h.mantissa, Nat.div_div_eq_div_mul]
  all_goals rw [hmod]
  case roundBit =>
    show (em.mantissa % 2 != 0) = true ↔ _
    rw [h.mantissa, bne_iff_ne]
    rcases Nat.mod_two_eq_zero_or_one (a / b) with hbit | hbit <;> rw [hbit] <;> omega
  case stickyBit =>
    show (em.roundBit || em.stickyBit) = true ↔ _
    rw [Bool.or_eq_true, h.roundBit, h.stickyBit]
    rcases Nat.mod_two_eq_zero_or_one (a / b) with hbit | hbit <;> rw [hbit] <;> omega

theorem Divided.shiftRight {em : ExtendedMantissa} {a b : Nat} (hb : 0 < b) (h : Divided em a b)
    (s : Nat) : Divided (em >>> s) a (b * 2 ^ s) := by
  induction s with
  | zero => rwa [Nat.pow_zero, Nat.mul_one]
  | succ s ih =>
    rw [Nat.pow_succ, ← Nat.mul_assoc]
    exact ih.shiftRightOne (Nat.mul_pos hb (Nat.two_pow_pos s))

theorem Divided.roundedMantissa {em : ExtendedMantissa} {a b : Nat} (hb : 0 < b)
    (h : Divided em a b) : em.roundedMantissa = nearestQuotient a b := by
  obtain ⟨m, roundBit, stickyBit⟩ := em
  obtain ⟨rfl, hround, hsticky⟩ := h
  unfold nearestQuotient
  cases roundBit <;> cases stickyBit <;> simp only [Bool.false_eq_true, false_iff, true_iff] at *
  · exact (if_pos (by omega)).symm
  · exact (if_pos (by omega)).symm
  · exact ((if_neg (by omega)).trans (if_pos (by omega))).symm
  · exact ((if_neg (by omega)).trans (if_neg (by omega))).symm

/-! ## Rounding to 53 bits -/

/-- How many of the lowest bits do not fit. -/
def excess (n : Nat) : Nat := n.log2 - 52

/-- The nearest number whose 53 highest bits say all of it. -/
def rounded (n : Nat) : Nat := nearestQuotient n (2 ^ excess n) * 2 ^ excess n

theorem log2_mono {n n' : Nat} (h : n ≤ n') : n.log2 ≤ n'.log2 := by
  rcases Nat.eq_zero_or_pos n with rfl | hn
  · exact Nat.zero_le _
  · exact (Nat.le_log2 (by omega)).2 ((Nat.log2_self_le hn.ne').trans h)

theorem log2_mul_pow {d : Nat} (hd : 0 < d) (j : Nat) : (d * 2 ^ j).log2 = d.log2 + j := by
  rw [Nat.log2_eq_iff (Nat.mul_pos hd (Nat.two_pow_pos j)).ne']
  constructor
  · rw [Nat.pow_add]
    exact Nat.mul_le_mul_right _ (Nat.log2_self_le hd.ne')
  · rw [Nat.add_right_comm, Nat.pow_add]
    exact Nat.mul_lt_mul_of_pos_right Nat.lt_log2_self (Nat.two_pow_pos j)

theorem lt_two_pow_excess (n : Nat) : n < 2 ^ (53 + excess n) :=
  Nat.lt_log2_self.trans_le (Nat.pow_le_pow_right (by decide) (by unfold excess; omega))

theorem two_pow_excess_le {n : Nat} (h : 0 < excess n) : 2 ^ (52 + excess n) ≤ n := by
  unfold excess at h ⊢
  have hn : n ≠ 0 := by
    rintro rfl
    exact absurd h (by decide)
  rw [Nat.add_sub_cancel' (by omega)]
  exact Nat.log2_self_le hn

/-- How many of the lowest bits of a quotient do not fit does not depend on the bits behind the point. -/
theorem excess_mul_div {a b : Nat} (hb : 0 < b) (hab : b ≤ a) (j : Nat) :
    excess (a * 2 ^ j / b) = excess (a / b * 2 ^ j) := by
  have hj : 0 < 2 ^ j := Nat.two_pow_pos j
  have hq : 0 < a / b := Nat.div_pos hab hb
  have hlow : 2 ^ (a / b).log2 * b ≤ a :=
    (Nat.le_div_iff_mul_le hb).1 (Nat.log2_self_le hq.ne')
  have hup : a < 2 ^ ((a / b).log2 + 1) * b := (Nat.div_lt_iff_lt_mul hb).1 Nat.lt_log2_self
  have hlog : (a * 2 ^ j / b).log2 = (a / b).log2 + j := by
    refine (Nat.log2_eq_iff ?_).2 ⟨?_, ?_⟩
    · exact (Nat.div_pos (hab.trans (Nat.le_mul_of_pos_right a hj)) hb).ne'
    · rw [Nat.le_div_iff_mul_le hb, Nat.pow_add, Nat.mul_right_comm]
      exact Nat.mul_le_mul_right _ hlow
    · rw [Nat.div_lt_iff_lt_mul hb, Nat.add_right_comm, Nat.pow_add, Nat.mul_right_comm]
      exact Nat.mul_lt_mul_of_pos_right hup hj
  unfold excess
  rw [hlog, log2_mul_pow hq]

/-- Rounding up may carry into one bit more, and no further. -/
theorem nearestQuotient_excess_le (a b : Nat) :
    nearestQuotient a (b * 2 ^ excess (a / b)) ≤ 2 ^ 53 := by
  refine (nearestQuotient_le_succ a _).trans ?_
  rw [← Nat.div_div_eq_div_mul, Nat.succ_le_iff, Nat.div_lt_iff_lt_mul (Nat.two_pow_pos _),
    ← Nat.pow_add]
  exact lt_two_pow_excess (a / b)

theorem le_nearestQuotient_excess {a b : Nat} (h : 0 < excess (a / b)) :
    2 ^ 52 ≤ nearestQuotient a (b * 2 ^ excess (a / b)) := by
  refine le_trans ?_ (div_le_nearestQuotient a _)
  rw [← Nat.div_div_eq_div_mul, Nat.le_div_iff_mul_le (Nat.two_pow_pos _), ← Nat.pow_add]
  exact two_pow_excess_le h

/-- A larger exponent counts for more than any mantissa. -/
theorem mul_pow_le_mul_pow {m m' k k' : Nat} (hle : m ≤ 2 ^ 53) (hfull : 2 ^ 52 ≤ m')
    (h : k < k') : m * 2 ^ k ≤ m' * 2 ^ k' :=
  calc m * 2 ^ k
      ≤ 2 ^ 53 * 2 ^ k := Nat.mul_le_mul_right _ hle
    _ = 2 ^ 52 * 2 ^ (k + 1) := by ring
    _ ≤ 2 ^ 52 * 2 ^ k' := Nat.mul_le_mul_left _ (Nat.pow_le_pow_right (by decide) h)
    _ ≤ m' * 2 ^ k' := Nat.mul_le_mul_right _ hfull

/-- The nearest number to `a / b` whose 53 highest bits say all of it. -/
def roundedQuotient (a b : Nat) : Nat :=
  nearestQuotient a (b * 2 ^ excess (a / b)) * 2 ^ excess (a / b)

theorem roundedQuotient_one (n : Nat) : roundedQuotient n 1 = rounded n := by
  unfold roundedQuotient rounded
  rw [Nat.div_one, Nat.one_mul]

theorem roundedQuotient_mono {a a' : Nat} (h : a ≤ a') (b : Nat) :
    roundedQuotient a b ≤ roundedQuotient a' b := by
  have hlog : excess (a / b) ≤ excess (a' / b) :=
    Nat.sub_le_sub_right (log2_mono (Nat.div_le_div_right h)) 52
  unfold roundedQuotient
  rcases Nat.lt_or_eq_of_le hlog with hlt | heq
  · exact mul_pow_le_mul_pow (nearestQuotient_excess_le a b)
      (le_nearestQuotient_excess (Nat.zero_lt_of_lt hlt)) hlt
  · rw [← heq]
    exact Nat.mul_le_mul_right _ (nearestQuotient_mono h _)

theorem rounded_mono {n n' : Nat} (h : n ≤ n') : rounded n ≤ rounded n' := by
  rw [← roundedQuotient_one, ← roundedQuotient_one]
  exact roundedQuotient_mono h 1

/-- Common factors make no difference. -/
theorem roundedQuotient_mul_right (a b : Nat) {c : Nat} (hc : 0 < c) :
    roundedQuotient (a * c) (b * c) = roundedQuotient a b := by
  unfold roundedQuotient
  rw [Nat.mul_div_mul_right a b hc, Nat.mul_right_comm, nearestQuotient_mul_right _ _ hc]

/-- What fits is kept. -/
theorem rounded_mul_pow {m : Nat} (h : m < 2 ^ 53) (k : Nat) : rounded (m * 2 ^ k) = m * 2 ^ k := by
  have hdvd : 2 ^ excess (m * 2 ^ k) ∣ m * 2 ^ k := by
    rcases Nat.eq_zero_or_pos m with rfl | hm
    · rw [Nat.zero_mul]
      exact Nat.dvd_zero _
    · have hlog : m.log2 < 53 := (Nat.log2_lt hm.ne').2 h
      have hle : excess (m * 2 ^ k) ≤ k := by
        unfold excess
        rw [log2_mul_pow hm]
        omega
      exact (Nat.pow_dvd_pow 2 hle).trans (Nat.dvd_mul_left ..)
  obtain ⟨d, hd⟩ := hdvd
  rw [Nat.mul_comm (2 ^ excess _)] at hd
  unfold rounded
  generalize excess (m * 2 ^ k) = s at hd ⊢
  rw [hd, nearestQuotient_mul_self d (Nat.two_pow_pos s)]

@[simp] theorem rounded_zero : rounded 0 = 0 := rounded_mul_pow (m := 0) (by decide) 0

/-! ## Doubles in units -/

/-- A nonnegative double that is `n` units. Its mantissa has 53 bits, or fewer if its exponent is
the smallest there is. -/
inductive Measures : UnpackedFloat → Nat → Prop
  | zero (s : Sign) : Measures (.zero s) 0
  | finite {m n k : Nat} {e : Int} (hm : 0 < m) (he : e = (k : Int) - 1074) (hlt : m < 2 ^ 53)
      (hfull : 2 ^ 52 ≤ m ∨ k = 0) (hn : n = m * 2 ^ k) : Measures (.finite .positive m e hm) n

theorem targetExponent_eq (d j : Nat) (hd : 0 < d) :
    Format.binary64.targetExponent (totalExponent d ((j : Int) - 1074))
      = (excess (d * 2 ^ j) : Int) - 1074 := by
  have hmin : Format.binary64.minExponent = -1074 := by decide
  have hbits : Format.binary64.mantissaBits = 53 := by decide
  unfold Format.targetExponent totalExponent excess
  rw [hmin, hbits, log2_mul_pow hd]
  omega

/-- A number of units is shifted until its highest bits are left. -/
theorem shiftToTargetExponent_eq (d j : Nat) (hd : 0 < d) (accuracy : Accuracy) :
    shiftToTargetExponent Format.binary64 d ((j : Int) - 1074) accuracy
      = (ExtendedMantissa.ofMantissaAndAccuracy d accuracy >>> (excess (d * 2 ^ j) - j),
          ((max j (excess (d * 2 ^ j)) : Nat) : Int) - 1074) := by
  unfold shiftToTargetExponent shiftToExponent
  rw [targetExponent_eq d j hd]
  generalize excess (d * 2 ^ j) = k
  dsimp only
  rw [show ((k : Int) - 1074 - ((j : Int) - 1074)).toNat = k - j by omega]
  refine Prod.ext rfl ?_
  show (j : Int) - 1074 + (k - j : Nat) = ((max j k : Nat) : Int) - 1074
  omega

/-- The second shift of a rounding: it takes the carry of the first one in, and loses nothing. -/
theorem measures_shifted {m k : Nat} (hle : m ≤ 2 ^ 53) (hfull : 2 ^ 52 ≤ m ∨ k = 0)
    {em : ExtendedMantissa} {e : Int}
    (h : shiftToTargetExponent Format.binary64 m ((k : Int) - 1074) .exact = (em, e)) :
    Measures (if hm : em.mantissa = 0 then .zero .positive
      else .finite .positive em.mantissa e (Nat.pos_of_ne_zero hm)) (m * 2 ^ k) := by
  rcases Nat.eq_zero_or_pos m with rfl | hm
  · have hem : em.mantissa = 0 := by
      rw [← (Prod.mk.inj h).1]
      exact ((divided_exact 0).shiftRight Nat.one_pos _).mantissa.trans (Nat.zero_div _)
    rw [dif_pos hem, Nat.zero_mul]
    exact .zero _
  · rw [shiftToTargetExponent_eq m k hm .exact] at h
    obtain ⟨rfl, rfl⟩ := Prod.mk.inj h
    have hmantissa := ((divided_exact m).shiftRight Nat.one_pos (excess (m * 2 ^ k) - k)).mantissa
    rw [Nat.one_mul] at hmantissa
    have hlog : (m * 2 ^ k).log2 = m.log2 + k := log2_mul_pow hm k
    rcases Nat.lt_or_eq_of_le hle with hlt | rfl
    · -- No carry: the exponent is already the right one.
      have hexcess : excess (m * 2 ^ k) = k := by
        have hup : m.log2 < 53 := (Nat.log2_lt hm.ne').2 hlt
        unfold excess
        rw [hlog]
        rcases hfull with hfull | rfl
        · have hlow : 52 ≤ m.log2 := (Nat.le_log2 hm.ne').2 hfull
          omega
        · omega
      rw [hexcess, Nat.sub_self, Nat.pow_zero, Nat.div_one] at hmantissa
      rw [dif_neg (by rw [hexcess, Nat.sub_self, hmantissa]; exact hm.ne')]
      refine .finite _ (by rw [hexcess, max_self]) ?_ ?_ ?_
      all_goals rw [hexcess, Nat.sub_self, hmantissa]
      · exact hlt
      · exact hfull
    · -- The carry makes a power of two, which has room one exponent higher.
      have hexcess : excess (2 ^ 53 * 2 ^ k) = k + 1 := by
        unfold excess
        rw [hlog, Nat.log2_two_pow]
        omega
      rw [hexcess, Nat.add_sub_cancel_left] at hmantissa
      rw [dif_neg (by rw [hexcess, Nat.add_sub_cancel_left, hmantissa]; decide)]
      refine .finite _ (by rw [hexcess, max_eq_right (Nat.le_succ k)]) ?_ ?_ ?_
      all_goals rw [hexcess, Nat.add_sub_cancel_left, hmantissa]
      · decide
      · exact .inl (by decide)
      · rw [Nat.pow_succ 2 k]
        omega

/-- A quotient of which at least 53 bits are known, rounded. -/
theorem measures_roundWithAccuracy {j a b : Nat} {accuracy : Accuracy} (hb : 0 < b) (hab : b ≤ a)
    (h : Divided (.ofMantissaAndAccuracy (a / b) accuracy) a b)
    (hj : j ≤ excess (a / b * 2 ^ j)) :
    Measures (roundWithAccuracy Format.binary64 .positive (a / b) ((j : Int) - 1074) accuracy)
      (roundedQuotient (a * 2 ^ j) b) := by
  have hexcess := excess_mul_div hb hab j
  have hle := nearestQuotient_excess_le (a * 2 ^ j) b
  have hfull := le_nearestQuotient_excess (a := a * 2 ^ j) (b := b)
  unfold roundedQuotient roundWithAccuracy
  rw [shiftToTargetExponent_eq _ j (Nat.div_pos hab hb) accuracy, max_eq_right hj]
  rw [hexcess] at hle hfull ⊢
  generalize excess (a / b * 2 ^ j) = k at hj hle hfull ⊢
  have hpos : 0 < b * 2 ^ (k - j) := Nat.mul_pos hb (Nat.two_pow_pos _)
  have hmantissa :
      (ExtendedMantissa.ofMantissaAndAccuracy (a / b) accuracy >>> (k - j)).roundedMantissa
        = nearestQuotient (a * 2 ^ j) (b * 2 ^ k) := by
    rw [(h.shiftRight hb _).roundedMantissa hpos,
      ← nearestQuotient_mul_right a _ (Nat.two_pow_pos j), Nat.mul_assoc, ← Nat.pow_add,
      Nat.sub_add_cancel hj]
  dsimp only
  rw [hmantissa]
  refine measures_shifted hle ?_ rfl
  rcases Nat.eq_zero_or_pos k with hzero | hexceeds
  · exact .inr hzero
  · exact .inl (hfull hexceeds)

theorem measures_roundExact {d j : Nat} (hd : 0 < d) (hj : j ≤ excess (d * 2 ^ j)) :
    Measures (roundWithAccuracy Format.binary64 .positive d ((j : Int) - 1074) .exact)
      (rounded (d * 2 ^ j)) := by
  have hexact : Divided (.ofMantissaAndAccuracy (d / 1) .exact) d 1 := by
    rw [Nat.div_one]
    exact divided_exact d
  have h := measures_roundWithAccuracy (j := j) Nat.one_pos hd hexact
  rw [Nat.div_one, roundedQuotient_one] at h
  exact h hj

/-- A positive number of units, rounded. -/
theorem measures_round {d : Nat} (hd : 0 < d) (j : Nat) :
    Measures (UnpackedFloat.round Format.binary64 .positive d ((j : Int) - 1074))
      (rounded (d * 2 ^ j)) := by
  -- The exponent is first lowered to the target, which is the same for all ways to write a number.
  generalize hk : excess (d * 2 ^ j) = k
  have hsame : d * 2 ^ (j - k) * 2 ^ min j k = d * 2 ^ j := by
    rw [Nat.mul_assoc, ← Nat.pow_add]
    congr 2
    omega
  have hround : UnpackedFloat.round Format.binary64 .positive d ((j : Int) - 1074)
      = roundWithAccuracy Format.binary64 .positive (d * 2 ^ (j - k)) ((min j k : Nat) - 1074)
          .exact := by
    unfold UnpackedFloat.round decreaseExponent
    simp only [targetExponent_eq d j hd, hk, Nat.shiftLeft_eq]
    rw [show ((j : Int) - 1074 - ((k : Int) - 1074)).toNat = j - k by omega]
    congr 1
    omega
  rw [hround, ← hsame]
  refine measures_roundExact (Nat.mul_pos hd (Nat.two_pow_pos _)) ?_
  rw [hsame, hk]
  exact Nat.min_le_right j k

theorem measures_normalize (d j : Nat) :
    Measures (UnpackedFloat.normalize Format.binary64 (d : Int) ((j : Int) - 1074) .positive)
      (rounded (d * 2 ^ j)) := by
  rcases Nat.eq_zero_or_pos d with rfl | hd
  · rw [Nat.zero_mul, rounded_zero]
    exact .zero _
  · unfold UnpackedFloat.normalize
    rw [compare_gt_iff_gt.2 (Int.natCast_pos.2 hd)]
    exact measures_round hd j

end Degree

end AnnotatedLogic
