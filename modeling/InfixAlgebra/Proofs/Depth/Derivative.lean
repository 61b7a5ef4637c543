import InfixAlgebra.Proofs.Depth.Reach
import InfixAlgebra.Proofs.Derivative.Steps
import InfixAlgebra.Scalar.Double

namespace InfixAlgebra

namespace Expr

variable {α : Type} [Scalar α] {t r a b d : Expr α} {op : Operator} {name : String} {k : Nat}

theorem depth_getD_fold?_le (h : r.depth ≤ k) : ((fold? op a b).getD r).depth ≤ k := by
  have hone : 1 ≤ k := r.one_le_depth.trans h
  unfold fold?
  split
  case h_1 x y =>
    dsimp only
    split
    case isTrue  => exact hone
    case isFalse => exact h
  case h_2 => exact h

theorem depth_of_reciprocal? (h : Folded.reciprocal? a = some d) : d.depth < a.depth := by
  unfold Folded.reciprocal? at h
  split at h
  case h_1 b c =>
    split at h
    case isTrue =>
      cases h
      simp only [depth]
      omega
    case isFalse => cases h
  case h_2 => cases h

-- Whatever is folded at the root, it ends up no more than one level above its operands.

theorem depth_folded_neg_le (a : Expr α) : (Folded.neg a).depth ≤ a.depth + 1 := by
  unfold Folded.neg
  split
  case h_1 => simp [depth]
  case h_2 => simp [depth]; omega
  case h_3 => simp [depth]

theorem depth_folded_add_le (a b : Expr α) :
    (Folded.add a b).depth ≤ max a.depth b.depth + 1 := by
  unfold Folded.add
  split
  case isTrue => omega
  case isFalse =>
    split
    case isTrue => omega
    case isFalse =>
      apply depth_getD_fold?_le
      split
      case h_1 c => simp only [depth]; omega
      case h_2   => simp only [depth]; omega

theorem depth_folded_sub_le (a b : Expr α) :
    (Folded.sub a b).depth ≤ max a.depth b.depth + 1 := by
  have hneg := depth_folded_neg_le b
  unfold Folded.sub
  split
  case isTrue => omega
  case isFalse =>
    split
    case isTrue => omega
    case isFalse =>
      apply depth_getD_fold?_le
      split
      case h_1 c => simp only [depth]; omega
      case h_2   => simp only [depth]; omega

theorem depth_folded_div_le (a b : Expr α) :
    (Folded.div a b).depth ≤ max a.depth b.depth + 1 := by
  unfold Folded.div
  split
  case isTrue => omega
  case isFalse =>
    split
    case isTrue  => simp [depth]
    case isFalse => exact depth_getD_fold?_le (Nat.le_refl _)

theorem depth_folded_pow_le (a b : Expr α) :
    (Folded.pow a b).depth ≤ max a.depth b.depth + 1 := by
  unfold Folded.pow
  split
  case isTrue => simp [depth]
  case isFalse =>
    split
    case isTrue  => omega
    case isFalse => exact depth_getD_fold?_le (Nat.le_refl _)

-- A number that is merged into a product takes the place of the number that led it.
theorem depth_folded_scale_le (x : α) (b : Expr α) : (Folded.scale x b).depth ≤ b.depth + 1 := by
  have hb := b.one_le_depth
  induction x, b using Folded.scale.induct with
  | case1 b x h =>
    rw [Folded.scale.eq_def, if_pos h]
    simp [depth]
  | case2 b x h₀ h₁ =>
    rw [Folded.scale.eq_def, if_neg h₀, if_pos h₁]
    omega
  | case3 b x h₀ h₁ hone =>
    rw [Folded.scale.eq_def, if_neg h₀, if_neg h₁, if_pos hone]
    simp [depth]
  | case4 b x h₀ h₁ hone ih =>
    rw [Folded.scale.eq_def, if_neg h₀, if_neg h₁, if_neg hone]
    apply depth_getD_fold?_le
    split
    case isTrue => exact depth_folded_neg_le b
    case isFalse =>
      split
      case isTrue => simp [depth]
      case isFalse =>
        split
        case h_1 d hd =>
          have hdiv := depth_folded_div_le (number x) d
          have hlt := depth_of_reciprocal? hd
          simp only [depth] at hdiv
          omega
        case h_2 =>
          split
          case h_1 y rest _ _ =>
            have hrest := ih rest.one_le_depth
            simp only [depth] at *
            omega
          case h_2 => simp only [depth]; omega

theorem depth_folded_mul_le (a b : Expr α) :
    (Folded.mul a b).depth ≤ max a.depth b.depth + 1 := by
  unfold Folded.mul
  split
  case h_1 x =>
    have hscale := depth_folded_scale_le x b
    omega
  case h_2 =>
    split
    case isTrue => simp [depth]
    case isFalse =>
      split
      case isTrue => omega
      case isFalse =>
        split
        case isTrue =>
          have hneg := depth_folded_neg_le a
          omega
        case isFalse =>
          cases hda : Folded.reciprocal? a with
          | some d =>
            have hdiv := depth_folded_div_le b d
            have hlt := depth_of_reciprocal? hda
            simp only
            omega
          | none =>
            cases hdb : Folded.reciprocal? b with
            | some d =>
              have hdiv := depth_folded_div_le a d
              have hlt := depth_of_reciprocal? hdb
              simp only
              omega
            | none =>
              split
              case h_3 => exact (depth_folded_scale_le _ a).trans (by omega)
              case h_4 => simp only [depth]; omega
              all_goals contradiction

theorem depth_folded_log_le (a : Expr α) : (Folded.log a).depth ≤ a.depth + 1 := by
  unfold Folded.log
  split
  case h_1 => simp [depth]
  case h_2 => simp [depth, depthOfAll]

theorem depth_slope_le (f : Elementary) (a : Expr α) : (slope f a).depth ≤ a.depth + 3 := by
  have ha := a.one_le_depth
  cases f with
  | sin => simp [slope, depth, depthOfAll]
  | cos =>
    have hneg := depth_folded_neg_le (call .sin [a])
    simp only [slope, depth, depthOfAll] at *
    omega
  | tan =>
    have hpow := depth_folded_pow_le (call .cos [a]) (number (Scalar.ofNat 2))
    have hdiv := depth_folded_div_le (number 1)
      (Folded.pow (call .cos [a]) (number (Scalar.ofNat 2)))
    simp only [slope, depth, depthOfAll] at *
    omega
  | sqrt =>
    have hmul := depth_folded_mul_le (number (Scalar.ofNat 2)) (call .sqrt [a])
    have hdiv := depth_folded_div_le (number 1)
      (Folded.mul (number (Scalar.ofNat 2)) (call .sqrt [a]))
    simp only [slope, depth, depthOfAll] at *
    omega
  | log =>
    have hdiv := depth_folded_div_le (number 1) a
    simp only [slope, depth] at *
    omega

-- How many levels the rules for two operands stack on the operands and on their derivatives.

theorem depth_product_rule_le (a a' b b' : Expr α) :
    (Folded.add (Folded.mul a' b) (Folded.mul a b')).depth ≤
      max (max a.depth b.depth) (max a'.depth b'.depth) + 2 := by
  have hleft := depth_folded_mul_le a' b
  have hright := depth_folded_mul_le a b'
  have hadd := depth_folded_add_le (Folded.mul a' b) (Folded.mul a b')
  omega

theorem depth_quotient_rule_le (a a' b b' : Expr α) :
    (Folded.div (Folded.sub (Folded.mul a' b) (Folded.mul a b'))
      (Folded.pow b (number (Scalar.ofNat 2)))).depth ≤
      max (max a.depth b.depth) (max a'.depth b'.depth) + 3 := by
  have hb := b.one_le_depth
  have hleft := depth_folded_mul_le a' b
  have hright := depth_folded_mul_le a b'
  have hsub := depth_folded_sub_le (Folded.mul a' b) (Folded.mul a b')
  have hsquare := depth_folded_pow_le b (number (Scalar.ofNat 2))
  have hdiv := depth_folded_div_le (Folded.sub (Folded.mul a' b) (Folded.mul a b'))
    (Folded.pow b (number (Scalar.ofNat 2)))
  simp only [depth] at hsquare
  omega

theorem depth_power_rule_le (a a' b : Expr α) :
    (Folded.mul (Folded.mul b (Folded.pow a (Folded.sub b (number 1)))) a').depth ≤
      max (max a.depth b.depth + 4) (a'.depth + 1) := by
  have hb := b.one_le_depth
  have hless := depth_folded_sub_le b (number 1)
  have hreduced := depth_folded_pow_le a (Folded.sub b (number 1))
  have hmul := depth_folded_mul_le b (Folded.pow a (Folded.sub b (number 1)))
  have hproduct := depth_folded_mul_le (Folded.mul b (Folded.pow a (Folded.sub b (number 1)))) a'
  simp only [depth] at hless
  omega

theorem depth_exponential_rule_le (a b b' : Expr α) :
    (Folded.mul (Folded.mul (.pow a b) (Folded.log a)) b').depth ≤
      max (max a.depth b.depth + 3) (b'.depth + 1) := by
  have hlog := depth_folded_log_le a
  have hmul := depth_folded_mul_le (.pow a b) (Folded.log a)
  have hproduct := depth_folded_mul_le (Folded.mul (.pow a b) (Folded.log a)) b'
  simp only [depth] at hmul
  omega

theorem depth_general_power_rule_le (a a' b b' : Expr α) :
    (Folded.mul (.pow a b)
      (Folded.add (Folded.mul b' (Folded.log a)) (Folded.div (Folded.mul b a') a))).depth ≤
      max (max a.depth b.depth) (max a'.depth b'.depth) + 4 := by
  have hlog := depth_folded_log_le a
  have hleft := depth_folded_mul_le b' (Folded.log a)
  have hright := depth_folded_mul_le b a'
  have hdiv := depth_folded_div_le (Folded.mul b a') a
  have hinner := depth_folded_add_le (Folded.mul b' (Folded.log a))
    (Folded.div (Folded.mul b a') a)
  have hproduct := depth_folded_mul_le (.pow a b)
    (Folded.add (Folded.mul b' (Folded.log a)) (Folded.div (Folded.mul b a') a))
  simp only [depth] at hproduct
  omega

-- No rule stacks more than four levels on the deepest of the operands and their derivatives.
theorem depth_of_derived (h : Derived name (fun t r => r.depth + 3 ≤ 4 * t.depth) t r) :
    r.depth + 3 ≤ 4 * t.depth := by
  cases h with
  | constant =>
    have ht := t.one_le_depth
    simp only [depth]
    omega
  | var => simp [depth]
  | @neg a a' ha =>
    have hneg := depth_folded_neg_le a'
    simp only [depth]
    omega
  | @add a a' b b' ha hb =>
    have hadd := depth_folded_add_le a' b'
    simp only [depth]
    omega
  | @sub a a' b b' ha hb =>
    have hsub := depth_folded_sub_le a' b'
    simp only [depth]
    omega
  | @constant_mul a b b' _ hb =>
    have ha := a.one_le_depth
    have hmul := depth_folded_mul_le a b'
    simp only [depth]
    omega
  | @mul_constant a a' b _ ha =>
    have hb := b.one_le_depth
    have hmul := depth_folded_mul_le a' b
    simp only [depth]
    omega
  | @mul a a' b b' ha hb =>
    have hrule := depth_product_rule_le a a' b b'
    simp only [depth]
    omega
  | @div_constant a a' b _ ha =>
    have hdiv := depth_folded_div_le a' b
    simp only [depth]
    omega
  | @div a a' b b' ha hb =>
    have hrule := depth_quotient_rule_le a a' b b'
    simp only [depth]
    omega
  | @pow_constant a a' b _ ha =>
    have hb := b.one_le_depth
    have hrule := depth_power_rule_le a a' b
    simp only [depth]
    omega
  | @constant_pow a b b' _ _ hb =>
    have ha := a.one_le_depth
    have hrule := depth_exponential_rule_le a b b'
    simp only [depth]
    omega
  | @pow a a' b b' _ ha hb =>
    have hrule := depth_general_power_rule_le a a' b b'
    simp only [depth]
    omega
  | @call f a a' ha =>
    have hone := a.one_le_depth
    have hslope := depth_slope_le f a
    have hmul := depth_folded_mul_le (slope f a) a'
    simp only [depth, depthOfAll] at *
    omega

variable {config : Config α}

theorem depth_le_of_differentiate (h : t.differentiate config name = .ok r) :
    t.depth ≤ config.maxDepth := by
  by_contra hlt
  rw [differentiate_of_lt name (Nat.lt_of_not_le hlt)] at h
  cases h

-- A derivative is at most four times as deep as the expression, and so cannot get far beyond the
-- limit on the depth of expressions.
theorem depth_differentiate_le (h : t.differentiate config name = .ok r) :
    r.depth ≤ 4 * t.depth - 3 ∧ r.depth ≤ 4 * config.maxDepth - 3 := by
  have hdepth : r.depth + 3 ≤ 4 * t.depth := differentiate_induct (fun _ _ => depth_of_derived) h
  have hlimit := depth_le_of_differentiate h
  omega

-- Two nested powers with the variable in base and exponent come within one level of the bound.
theorem depth_differentiate_le_of_tower :
    let x : Expr Float := .var "x"
    let t := pow (.pow x x) (.pow x x)
    let slope := mul (.pow x x) (.add (.call .log [x]) (.div x x))
    let r := mul t (.add (.mul slope (.call .log [.pow x x]))
      (.div (.mul (.pow x x) slope) (.pow x x)))
    t.differentiate { Config.standard with maxDepth := 3 } "x" = .ok r ∧
      r.depth = 8 ∧ r.depth ≤ 4 * t.depth - 3 ∧ r.depth ≤ 4 * 3 - 3 := by
  intro x t slope r
  have h : t.differentiate { Config.standard with maxDepth := 3 } "x" = .ok r := rfl
  exact ⟨h, rfl, depth_differentiate_le h⟩

end Expr

end InfixAlgebra
