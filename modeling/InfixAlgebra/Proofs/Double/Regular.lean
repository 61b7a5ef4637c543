import InfixAlgebra.Proofs.Double.Sign
import InfixAlgebra.Proofs.Normal.Regular

namespace InfixAlgebra

namespace Double

open Float.Model Float.Model.UnpackedFloat

variable {x y : Float} {u v : UnpackedFloat} {s s' : Sign} {m k : Nat} {e : Int} {hm : 0 < m}

theorem unpacked_one : unpacked 1 = .finite .positive (2 ^ 52) (-52) (by decide) :=
  rfl

theorem unpacked_neg_one : unpacked (-1) = .finite .negative (2 ^ 52) (-52) (by decide) :=
  rfl

-- Only zeros of different signs are equal without being the same.
theorem eq_or_zero_of_compare (h : u.compare v = some .eq) :
    u = v ∨ ∃ s s', u = .zero s ∧ v = .zero s' := by
  have heq {e e' : Int} {m m' : Nat} (h : (compare e e').then (compare m m') = .eq) :
      e = e' ∧ m = m' := by
    rwa [Ordering.then_eq_eq, Int.compare_eq_eq, Nat.compare_eq_eq] at h
  cases u with
  | notANumber => cases v <;> cases h
  | infinity s =>
    cases v with
    | infinity s' => cases s <;> cases s' <;> first | exact .inl rfl | cases h
    | _           => cases s <;> cases h
  | zero s =>
    cases v with
    | zero s'        => exact .inr ⟨s, s', rfl, rfl⟩
    | infinity s'    => cases s' <;> cases h
    | finite s'      => cases s' <;> cases h
    | notANumber     => cases h
  | finite s m e hm =>
    cases v with
    | finite s' m' e' hm' =>
      cases s <;> cases s'
      case negative.negative =>
        have ⟨he, hm⟩ := heq (Ordering.swap_eq_eq.mp (Option.some_inj.mp h))
        exact .inl (finite_congr hm he)
      case positive.positive =>
        have ⟨he, hm⟩ := heq (Option.some_inj.mp h)
        exact .inl (finite_congr hm he)
      all_goals cases h
    | infinity s' => cases s <;> cases s' <;> cases h
    | _           => cases s <;> cases h

theorem compare_comm (h : u.compare v = some .eq) : v.compare u = some .eq := by
  rcases eq_or_zero_of_compare h with rfl | ⟨s, s', rfl, rfl⟩
  case inl => exact h
  case inr => rfl

theorem beq_comm (x y : Float) : (x == y) = (y == x) := by
  rw [beq_eq, beq_eq, Bool.eq_iff_iff]
  simp only [UnpackedFloat.beq, beq_iff_eq]
  exact ⟨compare_comm, compare_comm⟩

theorem eq_of_beq (h : x == y) (hy : unpacked y = .finite s m e hm) : x = y := by
  rw [beq_eq, UnpackedFloat.beq, beq_iff_eq] at h
  rcases eq_or_zero_of_compare h with h | ⟨_, _, _, h⟩
  case inl => exact eq_of_unpacked h
  case inr => rw [hy] at h; cases h

-- Multiplication with a power of two.

theorem log2_mul_two_pow (hm : 0 < m) (k : Nat) : (m * 2 ^ k).log2 = m.log2 + k := by
  refine (Nat.log2_eq_iff (Nat.ne_of_gt (Nat.mul_pos hm (Nat.two_pow_pos k)))).mpr ⟨?_, ?_⟩
  · rw [Nat.pow_add]
    exact Nat.mul_le_mul_right _ (Nat.log2_self_le (Nat.ne_of_gt hm))
  · rw [Nat.add_right_comm, Nat.pow_add]
    exact Nat.mul_lt_mul_of_pos_right Nat.lt_log2_self (Nat.two_pow_pos k)

-- No bits are lost where only zeros are shifted out.
theorem shiftRight_exact (m k : Nat) :
    ExtendedMantissa.ofMantissaAndAccuracy (m * 2 ^ k) .exact >>> k = ⟨m, false, false⟩ := by
  induction k generalizing m with
  | zero => rw [Nat.pow_zero, Nat.mul_one]; rfl
  | succ k ih =>
    have hstep := ih (m * 2)
    rw [Nat.mul_assoc, ← Nat.pow_succ'] at hstep
    change ExtendedMantissa.shiftRightOne
      (ExtendedMantissa.ofMantissaAndAccuracy (m * 2 ^ (k + 1)) .exact >>> k) = _
    rw [hstep]
    simp [ExtendedMantissa.shiftRightOne]

theorem targetExponent_of_canonical (hc : Canonical (.finite s m e hm)) :
    format.targetExponent (totalExponent m e) = e := by
  have ⟨hlt, hlow, _, hlead⟩ := hc
  have hlog : m.log2 < 53 := (Nat.log2_lt (Nat.ne_of_gt hm)).mpr hlt
  have hlead : m.log2 = 52 ∨ e = -1074 := by
    refine hlead.imp_left fun hle => ?_
    have := (Nat.le_log2 (Nat.ne_of_gt hm)).mpr hle
    omega
  show max ((m.log2 : Int) + 1 + e - 53) (-1074) = e
  omega

theorem shiftToTargetExponent_exact (hc : Canonical (.finite s m e hm)) (k : Nat) :
    shiftToTargetExponent format (m * 2 ^ k) (e - k) .exact = (⟨m, false, false⟩, e) := by
  have ht : format.targetExponent (totalExponent (m * 2 ^ k) (e - k)) = e := by
    refine (congrArg format.targetExponent ?_).trans (targetExponent_of_canonical hc)
    rw [totalExponent, totalExponent, log2_mul_two_pow hm]
    omega
  have hk : (e - (e - k)).toNat = k := by omega
  simp only [shiftToTargetExponent, shiftToExponent, ht, hk, shiftRight_exact]
  exact congrArg _ (Int.sub_add_cancel e k)

theorem roundWithAccuracy_exact (hc : Canonical (.finite s m e hm)) (k : Nat) :
    roundWithAccuracy format s (m * 2 ^ k) (e - k) .exact = .finite s m e hm := by
  have h₀ := shiftToTargetExponent_exact hc 0
  rw [Nat.pow_zero, Nat.mul_one, Int.natCast_zero, Int.sub_zero] at h₀
  simp only [roundWithAccuracy, shiftToTargetExponent_exact hc k, ExtendedMantissa.roundedMantissa,
    ExtendedMantissa.accuracy, Accuracy.roundToNearestEven, h₀]
  exact dif_neg (Nat.ne_of_gt hm)

def applySign (s : Sign) : UnpackedFloat → UnpackedFloat
  | .notANumber       => .notANumber
  | .infinity s'      => .infinity (s * s')
  | .zero s'          => .zero (s * s')
  | .finite s' m e hm => .finite (s * s') m e hm

theorem unpacked_unit_mul (hx : unpacked x = .finite s (2 ^ 52) (-52) (by decide)) (y : Float) :
    unpacked (x * y) = applySign s (unpacked y) := by
  have hc := canonical_unpacked y
  have hmul : (unpacked x).mul format (unpacked y) = applySign s (unpacked y) := by
    rw [hx]
    cases hy : unpacked y with
    | finite s' m e hm =>
      rw [hy] at hc
      have hround := @roundWithAccuracy_exact (s * s') m e hm hc 52
      rwa [Nat.mul_comm, Int.sub_eq_add_neg, Int.add_comm] at hround
    | _ => rfl
  have hcanonical : Canonical (applySign s (unpacked y)) := by
    cases hy : unpacked y with
    | finite => rw [hy] at hc; exact hc
    | _      => trivial
  rw [← hmul] at hcanonical ⊢
  exact unpacked_ofModel hcanonical

theorem one_mul_eq (x : Float) : 1 * x = x := by
  refine eq_of_unpacked ((unpacked_unit_mul unpacked_one x).trans ?_)
  cases unpacked x with
  | notANumber => rfl
  | infinity s => cases s <;> rfl
  | zero s     => cases s <;> rfl
  | finite s   => cases s <;> rfl

theorem neg_one_mul_neg (x : Float) : -1 * -x = x := by
  refine eq_of_unpacked ((unpacked_unit_mul unpacked_neg_one (-x)).trans ?_)
  rw [unpacked_neg]
  cases unpacked x with
  | notANumber => rfl
  | infinity s => cases s <;> rfl
  | zero s     => cases s <;> rfl
  | finite s   => cases s <;> rfl

theorem not_neg_beq_zero (h : Scalar.lt x 0) : ¬-x == 0 := by
  rw [lt_eq, unpacked_zero] at h
  rw [beq_eq, unpacked_neg, unpacked_zero]
  cases hx : unpacked x with
  | notANumber => rw [hx] at h; cases h
  | infinity s => cases s <;> nofun
  | zero s     => rw [hx] at h; cases h
  | finite s   => cases s <;> nofun

end Double

instance : Scalar.Regular Float where
  one_mul_eq       := Double.one_mul_eq
  neg_one_mul_neg  := Double.neg_one_mul_neg
  beq_comm         := Double.beq_comm
  eq_one h         := Double.eq_of_beq h Double.unpacked_one
  eq_neg_one h     := Double.eq_of_beq h Double.unpacked_neg_one
  one_beq_one      := rfl
  not_one_beq_zero := nofun
  not_one_lt_zero  := nofun
  not_neg_beq_zero := Double.not_neg_beq_zero

end InfixAlgebra
