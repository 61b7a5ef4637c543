import InfixAlgebra.Proofs.Double.Ordered

namespace InfixAlgebra

namespace Double

open Float.Model Float.Model.UnpackedFloat

variable {s : Sign} {m n : Nat} {i e : Int} {v : ℚ} {em : ExtendedMantissa} {acc : Accuracy}

def Locates (em : ExtendedMantissa) (v : ℚ) : Prop :=
  match em.roundBit, em.stickyBit with
  | false, false => v = em.mantissa
  | false, true  => em.mantissa < v ∧ v < em.mantissa + 1 / 2
  | true, false  => v = em.mantissa + 1 / 2
  | true, true   => em.mantissa + 1 / 2 < v ∧ v < em.mantissa + 1

namespace Locates

theorem mantissa_le (h : Locates em v) : em.mantissa ≤ v := by
  obtain ⟨m, r, s⟩ := em
  cases r <;> cases s <;> simp only [Locates] at h <;> linarith

-- Bits that are shifted out leave what is known about them in the two bits behind the mantissa.
theorem shiftRightOne (h : Locates em v) : Locates em.shiftRightOne (v / 2) := by
  obtain ⟨m, r, s⟩ := em
  have hm : (m : ℚ) = 2 * (m / 2 : Nat) + (m % 2 : Nat) := by
    exact_mod_cast (Nat.div_add_mod m 2).symm
  rcases Nat.mod_two_eq_zero_or_one m with hbit | hbit
  case inl =>
    rw [hbit, Nat.cast_zero, add_zero] at hm
    cases r <;> cases s <;> simp only [Locates, hm] at h <;>
      simp [Locates, ExtendedMantissa.shiftRightOne, hbit]
    case false.false => linarith
    all_goals constructor <;> linarith
  case inr =>
    rw [hbit, Nat.cast_one] at hm
    cases r <;> cases s <;> simp only [Locates, hm] at h <;>
      simp [Locates, ExtendedMantissa.shiftRightOne, hbit]
    case false.false => linarith
    all_goals constructor <;> linarith

theorem shiftRight (h : Locates em v) (n : Nat) : Locates (em >>> n) (v / 2 ^ n) := by
  induction n with
  | zero =>
    rw [pow_zero, div_one]
    exact h
  | succ n ih =>
    rw [pow_succ, ← div_div]
    exact ih.shiftRightOne

theorem rounded (h : Locates em v) : |em.roundedMantissa - v| ≤ 1 / 2 := by
  obtain ⟨m, r, s⟩ := em
  rw [abs_le]
  cases r <;> cases s <;>
    simp only [Locates, ExtendedMantissa.roundedMantissa, ExtendedMantissa.accuracy,
      Accuracy.roundToNearestEven] at h ⊢
  case true.false =>
    rcases Nat.mod_two_eq_zero_or_one m with hbit | hbit <;> rw [hbit] <;> push_cast <;>
      constructor <;> linarith
  all_goals
    push_cast
    constructor <;> linarith

-- What a division leaves tells where the quotient lies.
theorem quotient (n : Nat) {k : Nat} (hk : 0 < k) :
    Locates (.ofMantissaAndAccuracy (n / k) (accuracyOfFraction (n % k) k)) (n / k) := by
  have hpos : (0 : ℚ) < k := by exact_mod_cast hk
  have hlt : ((n % k : Nat) : ℚ) / k < 1 := by
    rw [div_lt_one hpos]
    exact_mod_cast Nat.mod_lt n hk
  have hquotient : (n : ℚ) / k = (n / k : Nat) + ((n % k : Nat) : ℚ) / k := by
    rw [eq_comm, add_div_eq_mul_add_div _ _ hpos.ne']
    congr 1
    exact_mod_cast Nat.div_add_mod' n k
  rw [hquotient]
  by_cases hzero : n % k = 0
  case pos => simp [accuracyOfFraction, hzero, ExtendedMantissa.ofMantissaAndAccuracy, Locates]
  case neg =>
    have hrest : (0 : ℚ) < ((n % k : Nat) : ℚ) / k := by positivity
    have hhalf : ((n % k : Nat) : ℚ) / k - 1 / 2 = (2 * (n % k : Nat) - k) / (2 * k) := by
      field_simp
    rw [accuracyOfFraction, if_neg hzero]
    cases hc : compare (2 * (n % k)) k <;>
      simp only [Locates, ExtendedMantissa.ofMantissaAndAccuracy]
    case lt =>
      have hless : (2 * (n % k : Nat) : ℚ) < k := by exact_mod_cast Nat.compare_eq_lt.mp hc
      have hneg : ((n % k : Nat) : ℚ) / k - 1 / 2 < 0 :=
        hhalf ▸ div_neg_of_neg_of_pos (by linarith) (by linarith)
      constructor <;> linarith
    case eq =>
      have hequal : (2 * (n % k : Nat) : ℚ) = k := by exact_mod_cast Nat.compare_eq_eq.mp hc
      rw [hequal, sub_self, zero_div] at hhalf
      linarith
    case gt =>
      have hmore : (k : ℚ) < 2 * (n % k : Nat) := by exact_mod_cast Nat.compare_eq_gt.mp hc
      have hpos : 0 < ((n % k : Nat) : ℚ) / k - 1 / 2 := hhalf ▸ div_pos (by linarith) (by linarith)
      constructor <;> linarith

end Locates

theorem eq_of_abs_sub_lt_one {a b : ℤ} (h : |(a : ℚ) - b| < 1) : a = b :=
  sub_eq_zero.mp (Int.abs_lt_one_iff.mp (by exact_mod_cast h))

structure Nearest (v : ℚ) (r : Nat) (t : Int) : Prop where
  place : 2 ^ (52 + t) ≤ v ∨ t = -1074
  near  : |r * 2 ^ t - v| ≤ 2 ^ (t - 1)

theorem Locates.nearest {t : Int} (h : Locates em v) (hlead : 2 ^ 52 ≤ em.mantissa ∨ t = -1074) :
    Nearest (v * 2 ^ t) em.roundedMantissa t := by
  have hpos : (0 : ℚ) < 2 ^ t := by positivity
  refine ⟨hlead.imp_left fun hle => ?_, ?_⟩
  · have hfloor : (2 : ℚ) ^ (52 : ℤ) ≤ v := le_trans (by exact_mod_cast hle) h.mantissa_le
    rw [zpow_add₀ (by norm_num)]
    exact mul_le_mul_of_nonneg_right hfloor hpos.le
  · rw [← sub_mul, abs_mul, abs_of_pos hpos, zpow_sub_one₀ (by norm_num), Rat.mul_comm]
    exact mul_le_mul_of_nonneg_left (by simpa using h.rounded) hpos.le

namespace Nearest

variable {r : Nat} {t : Int}

-- Only what is smaller than half of the least number is rounded to zero.
theorem le_of_eq_zero (h : Nearest v r t) (hr : (r : ℚ) * 2 ^ t = 0) : v ≤ 2 ^ (-1075 : ℤ) := by
  have hle : v ≤ 2 ^ (t - 1) := by
    have hnear := h.near
    rw [hr, zero_sub, abs_neg] at hnear
    exact (le_abs_self v).trans hnear
  rcases h.place with hplace | rfl
  case inl =>
    have hlt : (2 : ℚ) ^ (t - 1) < 2 ^ (52 + t) := zpow_lt_zpow_right₀ (by norm_num) (by omega)
    linarith
  case inr => exact hle

-- The error is small against the number that is rounded, if this is not much smaller than one.
theorem relative (h : Nearest v r t) (hn : (r : ℚ) * 2 ^ t = n) (hpos : 0 < n) :
    |r * 2 ^ t - v| ≤ v / 2 ^ 53 := by
  have hplace : (2 : ℚ) ^ (52 + t) ≤ v := by
    rcases h.place with hplace | rfl
    case inl => exact hplace
    case inr =>
      have hone : (1 : ℚ) ≤ n := by exact_mod_cast hpos
      have hsmall {k : ℤ} (hk : k ≤ -1) : (2 : ℚ) ^ k ≤ 1 / 2 :=
        (zpow_le_zpow_right₀ (by norm_num) hk).trans_eq (by norm_num)
      have hnear := (le_abs_self _).trans (h.near.trans (hsmall (by norm_num)))
      rw [hn] at hnear
      exact (hsmall (by norm_num)).trans (by linarith)
  calc |r * 2 ^ t - v| ≤ 2 ^ (t - 1) := h.near
    _ = (2 : ℚ) ^ (52 + t) / 2 ^ 53 := by
      rw [← zpow_natCast, ← zpow_sub₀ (by norm_num)]
      congr 1
      push_cast
      ring
    _ ≤ v / 2 ^ 53 := by gcongr

-- Integers are rounded only where not all of their places are kept, and then to integers.

theorem eq_of_nonpos (h : Nearest n r t) (ht : t ≤ 0) : (r : ℚ) * 2 ^ t = n := by
  obtain ⟨k, hk⟩ := Int.eq_ofNat_of_zero_le (Int.neg_nonneg.mpr ht)
  obtain rfl : t = -k := by omega
  have hpos : (0 : ℚ) < 2 ^ (-k : ℤ) := by positivity
  have hcancel : (2 : ℚ) ^ k * 2 ^ (-k : ℤ) = 1 := by
    rw [zpow_neg, zpow_natCast]
    exact mul_inv_cancel₀ (by positivity)
  have hscale : (r : ℚ) * 2 ^ (-k : ℤ) - n = (r - n * 2 ^ k) * 2 ^ (-k : ℤ) := by
    rw [sub_mul, Rat.mul_assoc, hcancel, Rat.mul_one]
  have hnear := h.near
  rw [hscale, abs_mul, abs_of_pos hpos, zpow_sub_one₀ (by norm_num), Rat.mul_comm,
    mul_le_mul_iff_right₀ hpos] at hnear
  have hr : (r : ℤ) = n * 2 ^ k := by
    refine eq_of_abs_sub_lt_one ?_
    push_cast
    exact hnear.trans_lt (by norm_num)
  have hr : (r : ℚ) = n * 2 ^ k := by exact_mod_cast hr
  rw [hr, Rat.mul_assoc, hcancel, Rat.mul_one]

theorem eq_of_lt (h : Nearest n r t) (hlt : n < 2 ^ 53) : (r : ℚ) * 2 ^ t = n := by
  refine h.eq_of_nonpos ?_
  rcases h.place with hplace | rfl
  case inl =>
    by_contra ht
    have hle : (2 : ℚ) ^ 53 ≤ 2 ^ (52 + t) := by
      rw [← zpow_natCast]
      exact zpow_le_zpow_right₀ (by norm_num) (by push_cast; omega)
    have hlt : (n : ℚ) < 2 ^ 53 := by exact_mod_cast hlt
    linarith
  case inr => decide

theorem exists_nat (h : Nearest n r t) : ∃ k : Nat, (r : ℚ) * 2 ^ t = k := by
  rcases le_total t 0 with ht | ht
  case inl => exact ⟨n, h.eq_of_nonpos ht⟩
  case inr =>
    obtain ⟨k, rfl⟩ := Int.eq_ofNat_of_zero_le ht
    exact ⟨r * 2 ^ k, by push_cast; rfl⟩

theorem lt_two_pow (h : Nearest v r t) (hv : v < 2 ^ 1023) : (r : ℚ) * 2 ^ t < 2 ^ 1024 := by
  have hnear := (le_abs_self _).trans h.near
  have hone : (1 : ℚ) ≤ 2 ^ 1023 := one_le_pow₀ (by norm_num)
  rw [pow_succ' (2 : ℚ) 1023]
  generalize (2 : ℚ) ^ 1023 = large at *
  rcases h.place with hplace | rfl
  case inl =>
    have hle : (2 : ℚ) ^ (t - 1) ≤ 2 ^ (52 + t) := zpow_le_zpow_right₀ (by norm_num) (by omega)
    linarith
  case inr =>
    have hle : (2 : ℚ) ^ (-1074 - 1 : ℤ) ≤ 1 := zpow_le_one_of_nonpos₀ (by norm_num) (by norm_num)
    linarith

end Nearest

inductive Holds (s : Sign) (r : Nat) (t : Int) : UnpackedFloat → Prop
  | zero (h : r = 0) : Holds s r t (.zero s)
  | finite {m : Nat} {e : Int} {hm : 0 < m} (h : Rounded m e) (heq : (m : ℚ) * 2 ^ e = r * 2 ^ t) :
    Holds s r t (.finite s m e hm)

-- Rounding never raises the last place above what it can hold.
theorem holds_rounded {r : Nat} {t : Int} (hle : r ≤ 2 ^ 53) (hlow : -1074 ≤ t)
    (hlead : 2 ^ 52 ≤ r ∨ t = -1074) :
    Holds s r t
      (if h : (shiftToTargetExponent format r t .exact).1.mantissa = 0 then .zero s
      else .finite s _ (shiftToTargetExponent format r t .exact).2 (Nat.pos_of_ne_zero h)) := by
  rcases Nat.eq_zero_or_pos r with rfl | hr
  case inl =>
    have hzero : (shiftToTargetExponent format 0 t .exact).1.mantissa = 0 := by
      rw [shiftToTargetExponent_eq, mantissa_shiftRight, mantissa_ofMantissaAndAccuracy,
        Nat.zero_div]
    rw [dif_pos hzero]
    exact .zero rfl
  case inr =>
    obtain ⟨em, e, heq, hem, hrounded, he, hvalue⟩ :=
      exists_shiftToTargetExponent hr hle hlow hlead
    simp only [heq]
    rw [dif_neg hem.ne']
    refine .finite hrounded ?_
    rw [← hvalue, Nat.cast_mul, mul_assoc, Nat.cast_pow, Nat.cast_ofNat, ← zpow_natCast,
      ← zpow_add₀ (by norm_num)]
    congr 2
    omega

theorem leading_cutOff (hi : 2 ^ 52 ≤ m ∨ i ≤ -1074) :
    2 ^ 52 ≤ cutOff m i (target m i) ∨ target m i = -1074 := by
  rcases Nat.eq_zero_or_pos m with rfl | hm
  case inl =>
    right
    have hzero : Nat.log2 0 = 0 := Nat.log2_zero
    unfold target
    omega
  case inr => exact le_cutOff hm

-- Where enough bits are known, the rest of them is rounded to a nearest number.
theorem holds_roundWithAccuracy (h : Locates (.ofMantissaAndAccuracy m acc) v)
    (hi : 2 ^ 52 ≤ m ∨ i ≤ -1074) :
    ∃ r t, Nearest (v * 2 ^ i) r t ∧ Holds s r t (roundWithAccuracy format s m i acc) := by
  have hlog : 2 ^ 52 ≤ m → 52 ≤ m.log2 := fun hm => (Nat.le_log2 (by omega)).mpr hm
  have hlow : i ≤ target m i := by
    unfold target
    omega
  have hmin : -1074 ≤ target m i := le_max_right ..
  have hlead := leading_cutOff hi
  have hlt := cutOff_lt m i
  have hcut : cutOff m i (target m i) = m / 2 ^ (target m i - i).toNat := by
    rw [cutOff, Int.toNat_of_nonpos (by omega), Nat.pow_zero, Nat.mul_one]
  have hshift := shiftToTargetExponent_eq m i acc
  generalize target m i = t at *
  obtain ⟨n, rfl⟩ : ∃ n : Nat, t = i + n := ⟨(t - i).toNat, by omega⟩
  rw [add_sub_cancel_left, Int.toNat_natCast] at hshift hcut
  have hem : Locates _ (v / 2 ^ n) := h.shiftRight n
  have hmantissa := mantissa_shiftRight (.ofMantissaAndAccuracy m acc) n
  rw [mantissa_ofMantissaAndAccuracy, ← hcut] at hmantissa
  generalize ExtendedMantissa.ofMantissaAndAccuracy m acc >>> n = em at *
  have hbounds := roundedMantissa_bounds em
  have hscale : v * 2 ^ i = v / 2 ^ n * 2 ^ (i + n) := by
    rw [zpow_add₀ (by norm_num), zpow_natCast]
    field_simp
  rw [hmantissa] at hbounds
  refine ⟨em.roundedMantissa, i + n, ?_, ?_⟩
  · rw [hscale]
    exact hem.nearest (by rwa [hmantissa])
  · simp only [roundWithAccuracy, hshift]
    exact holds_rounded (by omega) hmin (by omega)

end Double

end InfixAlgebra
