import Mathlib
import InfixAlgebra.Expr.Folding
import InfixAlgebra.Proofs.Exact.Arithmetic
import InfixAlgebra.Proofs.Exact.Canonical

namespace InfixAlgebra

variable {K : Type} [Field K] [LinearOrder K] {I : Interpretation K} {values : String → Exact I}

open Exact

structure Interpretation.Exponential (I : Interpretation K) : Prop where
  pow_zero : ∀ u, I.pow u 0 = some 1
  pow_one  : ∀ u, I.pow u 1 = some u
  log_e    : I.elementary .log (I.constant .e) = some 1

namespace Interpretation.Exponential

theorem refines_pow_zero (hI : I.Exponential) (x : Exact I) : Refines (Scalar.pow x 0) 1 := by
  cases x with
  | none   => nofun
  | some u => exact .of_eq (hI.pow_zero u)

theorem pow_one_eq (hI : I.Exponential) (x : Exact I) : Scalar.pow x 1 = x := by
  cases x with
  | none   => rfl
  | some u => exact hI.pow_one u

end Interpretation.Exponential

namespace Expr

variable {a b c d r : Expr (Exact I)}

-- Folding at the root of an expression keeps what it stands for, as far as it stands for anything.

theorem Preserves.getD_fold? {op : Operator} (h : Preserves values (.binary op a b) r) :
    Preserves values (.binary op a b) ((fold? op a b).getD r) := by
  cases hf : fold? op a b with
  | some _ => exact refines_of_fold? hf
  | none   => exact h

theorem eq_div_of_reciprocal? (h : Folded.reciprocal? a = some d) : a = .div (.number 1) d := by
  unfold Folded.reciprocal? at h
  split at h
  case h_1 x y =>
    split at h
    case isTrue hx  => rw [← Option.some.inj h, eq_of_isNumber hx]
    case isFalse    => cases h
  case h_2 => cases h

namespace Folded

theorem preserves_neg (a : Expr (Exact I)) : Preserves values (.neg a) (neg a) := by
  unfold neg
  split
  case h_1 x => exact .refl _
  case h_2 b => exact .of_eq (Exact.neg_neg _)
  case h_3   => exact .refl _

theorem preserves_add (a b : Expr (Exact I)) : Preserves values (.add a b) (add a b) := by
  unfold add
  split
  case isTrue ha => rw [eq_of_isNumber ha]; exact .of_eq (zero_add _)
  case isFalse =>
    split
    case isTrue hb => rw [eq_of_isNumber hb]; exact .of_eq (add_zero _)
    case isFalse =>
      refine .getD_fold? ?_
      split
      case h_1 c => exact .of_eq (Exact.sub_eq_add_neg ..).symm
      case h_2   => exact .refl _

theorem preserves_sub (a b : Expr (Exact I)) : Preserves values (.sub a b) (sub a b) := by
  unfold sub
  split
  case isTrue hb => rw [eq_of_isNumber hb]; exact .of_eq (Exact.sub_zero _)
  case isFalse =>
    split
    case isTrue ha =>
      rw [eq_of_isNumber ha]
      exact (Refines.of_eq (Exact.zero_sub _)).trans (preserves_neg b)
    case isFalse =>
      refine .getD_fold? ?_
      split
      case h_1 c => exact .of_eq (Exact.sub_neg ..)
      case h_2   => exact .refl _

theorem preserves_div (a b : Expr (Exact I)) : Preserves values (.div a b) (div a b) := by
  unfold div
  split
  case isTrue hb => rw [eq_of_isNumber hb]; exact refines_div_one _
  case isFalse =>
    split
    case isTrue ha =>
      rw [eq_of_isNumber (Bool.and_eq_true_iff.mp ha).1]
      exact refines_zero_div _
    case isFalse => exact .getD_fold? (.refl _)

theorem preserves_pow (hI : I.Exponential) (a b : Expr (Exact I)) :
    Preserves values (.pow a b) (pow a b) := by
  unfold pow
  split
  case isTrue hb => rw [eq_of_isNumber hb]; exact hI.refines_pow_zero _
  case isFalse =>
    split
    case isTrue hb => rw [eq_of_isNumber hb]; exact .of_eq (hI.pow_one_eq _)
    case isFalse   => exact .getD_fold? (.refl _)

theorem preserves_log (hI : I.Exponential) (a : Expr (Exact I)) :
    Preserves values (.call .log [a]) (log a) := by
  unfold log
  split
  case h_1 => exact .of_eq hI.log_e
  case h_2 => exact .refl _

-- A quotient with the numerator one as a factor, on either side.

theorem preserves_reciprocal_mul (ha : reciprocal? a = some d) (b : Expr (Exact I)) :
    Preserves values (.mul a b) (div b d) := by
  rw [eq_div_of_reciprocal? ha]
  exact (refines_reciprocal_mul _ _).trans (preserves_div b d)

theorem preserves_mul_reciprocal (hb : reciprocal? b = some d) (a : Expr (Exact I)) :
    Preserves values (.mul a b) (div a d) :=
  (Refines.of_eq (mul_comm _ _)).trans (preserves_reciprocal_mul hb a)

theorem preserves_mul_neg_one (a : Expr (Exact I)) :
    Preserves values (.mul a (.number (-1))) (neg a) := by
  have hneg : a.denote values * -1 = -a.denote values := by
    rw [Exact.mul_neg, mul_one]
  exact (Refines.of_eq hneg).trans (preserves_neg a)

-- A number goes to the front and is merged with the number that stands there.
theorem preserves_scale (x : Exact I) (b : Expr (Exact I)) :
    Preserves values (.mul (.number x) b) (scale x b) := by
  induction x, b using scale.induct with
  | case1 b x h =>
    rw [scale.eq_def, if_pos h]
    cases Bool.or_eq_true_iff.mp h with
    | inl hx => rw [Exact.eq_of_beq hx]; exact .zero_mul _
    | inr hb => rw [eq_of_isNumber hb]; exact .mul_zero _
  | case2 b x h₀ h₁ =>
    rw [scale.eq_def, if_neg h₀, if_pos h₁, Exact.eq_of_beq h₁]
    exact .of_eq (one_mul _)
  | case3 b x h₀ h₁ hb =>
    rw [scale.eq_def, if_neg h₀, if_neg h₁, if_pos hb, eq_of_isNumber hb]
    exact .of_eq (mul_one _)
  | case4 b x h₀ h₁ hb ih =>
    rw [scale.eq_def, if_neg h₀, if_neg h₁, if_neg hb]
    refine .getD_fold? ?_
    split
    case isTrue hx =>
      rw [Exact.eq_of_beq hx]
      exact (Refines.of_eq (mul_comm _ _)).trans (preserves_mul_neg_one b)
    case isFalse =>
      split
      case isTrue hb => rw [eq_of_isNumber hb]; exact preserves_mul_neg_one (.number x)
      case isFalse =>
        split
        case h_1 d hd => exact preserves_mul_reciprocal hd _
        case h_2 =>
          split
          case h_1 y rest _ _ => exact (Refines.of_eq (mul_assoc x y _).symm).trans ih
          case h_2 => exact .refl _

theorem preserves_mul (a b : Expr (Exact I)) : Preserves values (.mul a b) (mul a b) := by
  unfold mul
  split
  case h_1 x => exact preserves_scale x b
  case h_2 =>
    split
    case isTrue hb => rw [eq_of_isNumber hb]; exact .mul_zero _
    case isFalse =>
      split
      case isTrue hb => rw [eq_of_isNumber hb]; exact .of_eq (mul_one _)
      case isFalse =>
        split
        case isTrue hb => rw [eq_of_isNumber hb]; exact preserves_mul_neg_one a
        case isFalse =>
          cases ha : reciprocal? a with
          | some d => exact preserves_reciprocal_mul ha b
          | none =>
            cases hb : reciprocal? b with
            | some d => exact preserves_mul_reciprocal hb a
            | none =>
              cases b with
              | number y => exact (Refines.of_eq (mul_comm _ _)).trans (preserves_scale y a)
              | _        => exact .refl _

end Folded

end Expr

end InfixAlgebra
