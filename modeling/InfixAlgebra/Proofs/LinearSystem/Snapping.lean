import Mathlib
import InfixAlgebra.LinearSystem.Solution
import InfixAlgebra.Proofs.LinearSystem.Substitution
import InfixAlgebra.Proofs.Exact.Rational

namespace InfixAlgebra

-- `z` is the integer that is nearest to `x`, and of two such integers the one farther from zero.
structure IsNearest (x : ℚ) (z : ℤ) : Prop where
  nearest : ∀ w : ℤ, |x - z| ≤ |x - w|
  away    : ∀ w : ℤ, |x - w| = |x - z| → |w| ≤ |z|

namespace IsNearest

variable {x : ℚ} {z : ℤ}

theorem neg (h : IsNearest x z) : IsNearest (-x) (-z) := by
  have hneg (w : ℤ) : |(-x : ℚ) - w| = |x - (-w : ℤ)| := by
    rw [Int.cast_neg, sub_neg_eq_add, ← abs_neg, neg_sub, sub_neg_eq_add, add_comm]
  constructor
  case nearest =>
    intro w
    rw [hneg, hneg, neg_neg]
    exact h.nearest (-w)
  case away =>
    intro w hw
    rw [hneg, hneg, neg_neg] at hw
    rw [abs_neg, ← abs_neg w]
    exact h.away (-w) hw

theorem floor_add_half (hx : 0 ≤ x) : IsNearest x (x + 1 / 2).floor := by
  set z := (x + 1 / 2).floor
  have hle : (z : ℚ) ≤ x + 1 / 2 := Rat.floor_le _
  have hlt : x + 1 / 2 < (z + 1 : ℤ) := Rat.lt_floor_add_one _
  have hz : 0 ≤ z := Rat.le_floor_iff.mpr (by push_cast; linarith)
  push_cast at hlt
  have hhalf : |x - z| ≤ 1 / 2 := abs_le.mpr ⟨by linarith, by linarith⟩
  constructor
  case nearest =>
    intro w
    by_cases hw : w = z
    case pos => rw [hw]
    case neg =>
      have hone : (1 : ℚ) ≤ |(z : ℚ) - w| := mod_cast Int.one_le_abs (sub_ne_zero.mpr (Ne.symm hw))
      have htriangle : |(z : ℚ) - w| ≤ |x - z| + |x - w| := abs_sub_comm x z ▸ abs_sub_le ..
      linarith
  case away =>
    -- An integer that is farther from zero is more than a half away.
    intro w hxw
    by_contra hfar
    rw [abs_of_nonneg hz, not_le, lt_abs] at hfar
    cases hfar with
    | inl hw =>
      have hw : (z : ℚ) + 1 ≤ w := mod_cast hw
      have hxw' : -(x - w) ≤ |x - w| := neg_le_abs _
      linarith
    | inr hw =>
      have hw : (z : ℚ) + 1 ≤ -w := mod_cast hw
      have hz : (0 : ℚ) ≤ z := mod_cast hz
      have hxw' : x - w ≤ |x - w| := le_abs_self _
      linarith

theorem exists_round (x : ℚ) : ∃ z : ℤ, Interpretation.rational.round x = z ∧ IsNearest x z := by
  unfold Interpretation.rational
  dsimp only
  split
  case isTrue hx =>
    have hneg : IsNearest (-x) (-x + 1 / 2).floor := floor_add_half (neg_nonneg.mpr hx.le)
    have hround := hneg.neg
    rw [neg_neg, neg_add_eq_sub] at hround
    exact ⟨_, (Int.cast_neg _).symm, hround⟩
  case isFalse hx => exact ⟨_, rfl, floor_add_half (not_lt.mp hx)⟩

end IsNearest

namespace Solution

variable {K : Type} {I : Interpretation K} [Field K] [LinearOrder K]

theorem snap_eq (tolerance x : K) : snap (Exact.of tolerance : Exact I) (Exact.of x) =
      Exact.of (if |x - I.round x| < tolerance then I.round x else x) := by
  let n : Exact I := Exact.of (I.round x)
  have hzero : (if n == 0 then 0 else n) = n := by
    split
    case isTrue h  => exact (Exact.eq_of_beq h).symm
    case isFalse   => rfl
  have hlt : Scalar.lt (Scalar.abs (Exact.of x - n)) (Exact.of tolerance : Exact I) ↔
      |x - I.round x| < tolerance :=
    Exact.lt_of_iff
  change (if Scalar.lt (Scalar.abs (Exact.of x - n)) (Exact.of tolerance : Exact I) then
    (if n == 0 then 0 else n) else Exact.of x) = _
  rw [hzero, apply_ite Exact.of]
  exact if_congr hlt rfl rfl

theorem map_snap_column {n : ℕ} (tolerance : K) (x : Fin n → K) :
    (Exact.column x).map (snap (Exact.of tolerance : Exact I)) =
      Exact.column fun i => if |x i - I.round (x i)| < tolerance then I.round (x i) else x i := by
  rw [Exact.column, List.map_ofFn]
  exact congrArg List.ofFn (funext fun i => snap_eq tolerance (x i))

end Solution

end InfixAlgebra
