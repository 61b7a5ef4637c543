import InfixAlgebra.Proofs.Normal.Basic

namespace InfixAlgebra

open Merging Scalar.Regular

variable {α : Type}

namespace Expr

-- Numbers and their products weigh nothing, and exponents that are numbers next to nothing.
def nodeWeight (op : Operator) (right : Expr α) : Nat :=
  match op, right with
  | .mul, _         => 0
  | .pow, .number _ => 1
  | _, _            => 2

mutual

-- A weight that rewriting never adds to, and that is lost wherever parts of an expression are
-- merged into something that might be rewritten again.
def weight : Expr α → Nat
  | number _               => 0
  | constant _ | var _     => 2
  | neg a                  => a.weight
  | binary op a b          => a.weight + b.weight + nodeWeight op b
  | call _ args            => weightOfAll args + 2
termination_by structural t => t

def weightOfAll : List (Expr α) → Nat
  | []      => 0
  | a :: as => a.weight + weightOfAll as
termination_by structural ts => ts

end

theorem weight_sum {op : Operator} {a b : Expr α} (ho : op = .add ∨ op = .sub) :
    (binary op a b).weight = a.weight + b.weight + 2 := by
  rcases ho with rfl | rfl <;> rfl

def factorWeight (f : Expr α) : Nat :=
  f.weight + if f.isAtom then 0 else 1

variable {f t : Expr α} {fs : List (Expr α)}

theorem weight_le_factorWeight : f.weight ≤ f.factorWeight :=
  Nat.le_add_right ..

theorem factorWeight_le : f.factorWeight ≤ f.weight + 1 := by
  unfold factorWeight
  split <;> omega

theorem factorWeight_of_isAtom (h : f.isAtom) : f.factorWeight = f.weight := by
  rw [factorWeight, if_pos h, Nat.add_zero]

theorem isAtom_of_factorWeight_le (h : f.factorWeight ≤ f.weight) : f.isAtom := by
  unfold factorWeight at h
  split at h
  case isTrue hf => exact hf
  case isFalse   => omega

theorem weight_eq_total (t : Expr α) : t.weight = total weight t.factors := by
  induction t with
  | neg a ih => rw [weight, factors, ih]
  | binary op a b iha ihb =>
    cases op with
    | mul => rw [weight, factors, total_append, ← iha, ← ihb]; rfl
    | _   => rfl
  | _ => rfl

theorem total_factorWeight_factors (t : Expr α) : total factorWeight t.factors = t.weight := by
  rw [weight_eq_total]
  refine congrArg List.sum (List.map_congr_left fun f hf => ?_)
  exact factorWeight_of_isAtom (isAtom_of_mem_factors hf)

theorem total_weight_le (fs : List (Expr α)) : total weight fs ≤ total factorWeight fs :=
  total_le_of_forall fun _ _ => weight_le_factorWeight

-- Single factors are told by their weights.
theorem isAtom_of_total_le (h : total factorWeight fs ≤ total weight fs) : ∀ f ∈ fs, f.isAtom := by
  induction fs with
  | nil => nofun
  | cons f fs ih =>
    have hf := @weight_le_factorWeight α f
    have hfs := total_weight_le fs
    simp only [total_cons] at h
    exact List.forall_mem_cons.mpr ⟨isAtom_of_factorWeight_le (by omega), ih (by omega)⟩

theorem weight_foldl_mul (f : Expr α) (fs : List (Expr α)) :
    (fs.foldl .mul f).weight = f.weight + total weight fs := by
  induction fs generalizing f with
  | nil => rfl
  | cons g gs ih =>
    rw [List.foldl_cons, ih, weight, total_cons, nodeWeight]
    omega

-- What may stand below an exponent of one: a single factor that is not a power with a number
-- already.
def isBase : Expr α → Bool
  | pow _ (number _) => false
  | t                => t.isAtom

theorem isBase_of_not_pow (h : ∀ a x, t ≠ .pow a (.number x)) : t.isBase = t.isAtom := by
  unfold isBase
  split
  case h_1 a x => exact absurd rfl (h a x)
  case h_2     => rfl

theorem isAtom_of_isBase (h : t.isBase) : t.isAtom := by
  unfold isBase at h
  split at h
  case h_1 => cases h
  case h_2 => exact h

theorem weight_of_isBase (h : t.isBase) : 2 ≤ t.weight := by
  cases t with
  | number | neg => cases h
  | constant     => exact Nat.le_refl 2
  | var          => exact Nat.le_refl 2
  | call         => exact Nat.le_add_left ..
  | binary op a b =>
    have hnode : nodeWeight op b = 2 := by
      cases op with
      | mul => cases h
      | pow => cases b <;> first | rfl | cases h
      | _   => rfl
    rw [weight, hnode]
    exact Nat.le_add_left ..

theorem weight_of_isSum (h : t.isSum) : 2 ≤ t.weight := by
  unfold isSum at h
  split at h
  case h_1 => exact Nat.le_add_left ..
  case h_2 => exact Nat.le_add_left ..
  case h_3 => cases h

theorem isBase_of_same [BEq α] {a b : Expr α} (h : a.same b) : a.isBase = b.isBase := by
  cases a with
  | binary op a a' =>
    cases b with
    | binary op' b b' =>
      simp only [same, Bool.and_eq_true, beq_iff_eq] at h
      obtain ⟨⟨rfl, _⟩, h⟩ := h
      cases op with
      | pow => cases a' <;> cases b' <;> first | rfl | cases h
      | _   => rfl
    | _ => cases h
  | _ => cases b <;> first | rfl | cases h

end Expr

variable [Scalar α]

namespace Power

def weight (p : Power α) : Nat :=
  p.base.weight + if p.exponent == 1 && p.base.isBase then 0 else 1

variable {p : Power α} {f : Expr α} {fs : List (Expr α)}

theorem weight_le : p.weight ≤ p.base.weight + 1 := by
  unfold weight
  split <;> omega

theorem weight_ofExpr_le [Scalar.Regular α] (f : Expr α) : (ofExpr f).weight ≤ f.factorWeight := by
  unfold ofExpr
  split
  case h_1 a x =>
    have hle := @weight_le _ _ (Power.mk a x)
    rw [Expr.factorWeight_of_isAtom rfl]
    exact hle
  case h_2 h =>
    rw [weight, Expr.isBase_of_not_pow h, Expr.factorWeight]
    simp only [one_beq_one, Bool.true_and]
    exact Nat.le_refl _

theorem factorWeight_toExpr_le (p : Power α) : p.toExpr.factorWeight ≤ p.weight := by
  unfold toExpr
  split
  case isTrue h =>
    simp only [weight, Expr.factorWeight, h, Bool.true_and]
    refine Nat.add_le_add_left ?_ _
    by_cases hb : p.base.isBase
    case pos => simp [Expr.isAtom_of_isBase hb]
    case neg =>
      rw [if_neg hb]
      split <;> omega
  case isFalse h =>
    simp only [weight, h, Bool.false_and]
    exact Nat.le_refl _

-- A base is lost wherever two powers of it are merged.
theorem lightens_weight : merging.Lightens (weight (α := α)) := by
  intro q p h
  have hsame : q.base.isBase = p.base.isBase := Expr.isBase_of_same h
  have hjoin : (merging.join q p).weight ≤ q.base.weight + 1 := weight_le
  by_cases hp : p.base.isBase
  case pos =>
    have hbase := Expr.weight_of_isBase hp
    unfold weight at *
    omega
  case neg =>
    have hq : ¬q.base.isBase := fun hq => hp (hsame ▸ hq)
    simp only [weight, hp, hq, Bool.and_false] at *
    simp only [Bool.false_eq_true, if_false]
    omega

theorem total_ofExpr_le [Scalar.Regular α] (fs : List (Expr α)) :
    total weight (fs.map ofExpr) ≤ total Expr.factorWeight fs := by
  rw [total, List.map_map]
  exact total_le_of_forall fun f _ => weight_ofExpr_le f

variable [NumberText α]

theorem total_group_le_addAll (fs : List (Expr α)) :
    total Expr.factorWeight (group fs) ≤ total weight (merging.addAll [] (fs.map ofExpr)) := by
  rw [group_eq, mergeAll_eq, total_perm (SortKey.perm_sort _ _), total, List.map_map]
  refine Nat.le_trans (total_le_of_forall (v := Expr.factorWeight ∘ toExpr) fun p _ => ?_)
    (total_filter_le _ _)
  exact factorWeight_toExpr_le p

-- Grouping makes nothing heavier, and where it loses nothing all bases are different.

theorem total_group_le [Scalar.Regular α] (fs : List (Expr α)) :
    total Expr.factorWeight (group fs) ≤ total Expr.factorWeight fs := by
  have h₁ := total_group_le_addAll fs
  have h₂ := @total_addAll_le _ _ _ [] (fs.map ofExpr) (lightens_weight (α := α))
  have h₃ := total_ofExpr_le fs
  rw [total_nil] at h₂
  omega

theorem distinct_of_total_group [Scalar.Regular α]
    (h : total Expr.factorWeight fs ≤ total Expr.factorWeight (group fs)) :
    merging.Distinct (fs.map ofExpr) := by
  have h₁ := total_group_le_addAll fs
  have h₃ := total_ofExpr_le fs
  have h₀ := h₃.trans (h.trans h₁)
  exact distinct_of_total_addAll lightens_weight .nil ((Nat.zero_add _).trans_le h₀)

end Power

namespace Term

-- A term weighs something on its own, apart from its factors.
def weight (own : Nat) (u : Term α) : Nat :=
  total Expr.weight u.factors + own

variable {u : Term α} {own : Nat}

theorem lightens_weight (h : 0 < own) : merging.Lightens (weight (α := α) own) := by
  intro u t _
  have hjoin : weight own (merging.join u t) = weight own u := rfl
  rw [hjoin]
  exact Nat.lt_add_of_pos_right (Nat.lt_of_lt_of_le h (Nat.le_add_left ..))

theorem weight_toExpr_le (u : Term α) : u.toExpr.weight ≤ total Expr.weight u.factors := by
  obtain ⟨x, fs⟩ := u
  cases fs with
  | nil => exact Nat.le_refl _
  | cons f fs =>
    have hone := Expr.weight_foldl_mul f fs
    have hnumber := Expr.weight_foldl_mul (.mul (.number x) f) fs
    have hmul : (Expr.mul (.number x) f).weight = f.weight := by
      simp [Expr.weight, Expr.nodeWeight]
    simp only [toExpr, total_cons]
    split
    case isTrue => exact Nat.zero_le _
    case isFalse =>
      split
      case isTrue => omega
      case isFalse =>
        split
        case isTrue  => rw [Expr.weight]; omega
        case isFalse => omega

end Term

-- The terms of a sum are as heavy as the sum.
theorem Expr.total_scaledTerms_le {own : Nat} (h : own ≤ 2) (scale : α) (t : Expr α) :
    total (Term.weight own) (t.scaledTerms scale) ≤ t.weight + own := by
  induction scale, t using scaledTerms_induct with
  | add scale a b iha ihb =>
    rw [scaledTerms, total_append, weight_sum (by decide)]
    omega
  | sub scale a b iha ihb =>
    rw [scaledTerms, total_append, weight_sum (by decide)]
    omega
  | scaled scale t s hs ih =>
    rw [scaledTerms_of_some hs, weight_eq_total t, (factors_of_scaledSum? hs).1]
    exact ih
  | term scale t hs ht =>
    rw [scaledTerms_of_none hs ht, weight_eq_total t]
    exact Nat.le_refl _

end InfixAlgebra
