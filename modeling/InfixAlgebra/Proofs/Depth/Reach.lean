import InfixAlgebra.Proofs.Normal.Sums

namespace InfixAlgebra

open Merging Scalar.Regular

variable {α : Type}

namespace Expr

def lead : Expr α → Nat
  | neg _   => 1
  | mul a _ => if a.number?.isSome then 1 else a.lead
  | _       => 0

mutual

-- How deep an expression may reach as an addend, what leads it apart: a number in front of a
-- product lengthens the product, but not the sum that it is an addend of.
def span : Expr α → Nat
  | number _ | constant _ | var _ => 2
  | neg a      => a.span + a.lead
  | binary op a b =>
    match op with
    | .add | .sub => a.span + b.span
    | .mul        => (if a.number?.isSome then 0 else a.span) + (b.span + b.lead)
    | .div        => (a.span + a.lead) + (b.span + b.lead)
    | .pow        => (a.span + a.lead) + (if b.number?.isSome then 1 else b.span + b.lead)
  | call _ args => spanOfAll args + 1
termination_by structural t => t

def spanOfAll : List (Expr α) → Nat
  | []      => 1
  | a :: as => max (a.span + a.lead) (spanOfAll as)
termination_by structural ts => ts

end

-- A bound of the depth that rewriting never adds to.
def reach (t : Expr α) : Nat :=
  t.span + t.lead

variable {t s a b : Expr α} {op : Operator} {fs : List (Expr α)}

theorem lead_le_one (t : Expr α) : t.lead ≤ 1 := by
  induction t with
  | neg a => exact Nat.le_refl 1
  | binary op a b iha =>
    cases op with
    | mul =>
      rw [lead]
      split
      case isTrue  => exact Nat.le_refl 1
      case isFalse => exact iha
    | _ => exact Nat.zero_le 1
  | _ => exact Nat.zero_le 1

theorem reach_sum (ho : op = .add ∨ op = .sub) : (binary op a b).reach = a.span + b.span := by
  rcases ho with rfl | rfl <;> rfl

theorem span_le_reach (t : Expr α) : t.span ≤ t.reach :=
  Nat.le_add_right ..

theorem reach_le_span (t : Expr α) : t.reach ≤ t.span + 1 :=
  Nat.add_le_add_left t.lead_le_one _

theorem one_le_spanOfAll (args : List (Expr α)) : 1 ≤ spanOfAll args := by
  induction args with
  | nil            => exact Nat.le_refl 1
  | cons a args ih => exact ih.trans (Nat.le_max_right ..)

theorem two_le_span (t : Expr α) : 2 ≤ t.span := by
  induction t with
  | neg a ih => exact Nat.le_add_right_of_le ih
  | binary op a b iha ihb =>
    cases op with
    | pow =>
      simp only [span]
      split <;> omega
    | _ =>
      simp only [span]
      omega
  | call f args _ => exact Nat.succ_le_succ (one_le_spanOfAll args)
  | _             => exact Nat.le_refl 2

theorem two_le_reach (t : Expr α) : 2 ≤ t.reach :=
  t.two_le_span.trans t.span_le_reach

theorem one_le_depth (t : Expr α) : 1 ≤ t.depth := by
  cases t <;> exact Nat.succ_le_succ (Nat.zero_le _)

theorem depth_lt_reach (t : Expr α) : t.depth < t.reach := by
  induction t with
  | neg a ih => exact Nat.succ_lt_succ ih
  | binary op a b iha ihb =>
    have ha := a.two_le_span
    have hb := b.two_le_span
    have hla := a.lead_le_one
    have hlb := b.lead_le_one
    have hda := a.one_le_depth
    have hdb := b.one_le_depth
    cases op with
    | mul =>
      simp only [reach, span, lead, depth] at *
      split
      case isTrue h =>
        have hd : a.depth = 1 := by cases a <;> first | rfl | cases h
        omega
      case isFalse => omega
    | pow =>
      simp only [reach, span, lead, depth] at *
      split
      case isTrue h =>
        have hd : b.depth = 1 := by cases b <;> first | rfl | cases h
        omega
      case isFalse => omega
    | _ =>
      simp only [reach, span, lead, depth] at *
      omega
  | call f args ih =>
    refine Nat.succ_lt_succ ?_
    induction args with
    | nil => exact Nat.one_pos
    | cons a args ihargs =>
      have ha := ih a List.mem_cons_self
      have hargs := ihargs fun b hb => ih b (List.mem_cons_of_mem a hb)
      simp only [depthOfAll, spanOfAll, reach] at *
      omega
  | _ => exact Nat.lt_add_one 1

theorem reach_mul_le (a b : Expr α) : (mul a b).reach ≤ a.reach + b.reach := by
  have ha := a.two_le_reach
  simp only [reach, span, lead] at *
  split <;> omega

theorem span_mul_le (a b : Expr α) : (mul a b).span ≤ a.span + b.reach := by
  simp only [reach, span]
  split <;> omega

theorem reach_pow_le (a b : Expr α) : (pow a b).reach ≤ a.reach + b.reach := by
  have hb := b.two_le_reach
  simp only [reach, span, lead] at *
  split <;> omega

theorem reach_foldl_mul_le (t : Expr α) (fs : List (Expr α)) :
    (fs.foldl .mul t).reach ≤ t.reach + total reach fs := by
  induction fs generalizing t with
  | nil => exact Nat.le_refl _
  | cons f fs ih =>
    have hmul := reach_mul_le t f
    have hfs := ih (.mul t f)
    rw [total_cons, List.foldl_cons]
    omega

theorem span_foldl_mul_le (t : Expr α) (fs : List (Expr α)) :
    (fs.foldl .mul t).span ≤ t.span + total reach fs := by
  induction fs generalizing t with
  | nil => exact Nat.le_refl _
  | cons f fs ih =>
    have hmul := span_mul_le t f
    have hfs := ih (.mul t f)
    rw [total_cons, List.foldl_cons]
    omega

-- The factors of a product reach no further than the product.
theorem total_factors_le (t : Expr α) : total reach t.factors ≤ t.span := by
  induction t with
  | number x => exact Nat.zero_le _
  | neg a ih => exact Nat.le_add_right_of_le ih
  | binary op a b iha ihb =>
    cases op with
    | mul =>
      rw [factors, total_append, span]
      split
      case isTrue h =>
        have ha : a.factors = [] := by cases a <;> first | rfl | cases h
        rw [ha, total_nil]
        omega
      case isFalse => omega
    | _ => exact Nat.le_refl _
  | _ => exact Nat.le_refl _

-- What reaches no further than its factors has no number among them.
theorem total_factors_lt_or [Scalar α] (t : Expr α) :
    total reach t.factors < t.reach ∨ ∀ x, t.coefficientFrom x = x := by
  induction t with
  | number x => exact .inl (Nat.succ_pos 1)
  | neg a ih => exact .inl (Nat.lt_succ_of_le (a.total_factors_le.trans a.span_le_reach))
  | binary op a b iha ihb =>
    cases op with
    | mul =>
      have ha := a.total_factors_le
      have hb := b.total_factors_le
      simp only [factors, total_append, reach, span, lead] at *
      split
      case isTrue h =>
        have ha : a.factors = [] := by cases a <;> first | rfl | cases h
        rw [ha, total_nil]
        exact .inl (by omega)
      case isFalse =>
        rcases iha with iha | iha
        case inl => exact .inl (by omega)
        case inr =>
          rcases ihb with ihb | ihb
          case inl => exact .inl (by omega)
          case inr => exact .inr fun x => by rw [coefficientFrom, iha, ihb]
    | _ => exact .inr fun x => rfl
  | _ => exact .inr fun x => rfl

end Expr

variable [Scalar α]

namespace Power

def reach (p : Power α) : Nat :=
  p.base.reach + if p.exponent == 1 then 0 else 1

theorem lightens_reach : merging.Lightens (reach (α := α)) := by
  intro q p _
  have hp := p.base.two_le_reach
  have hjoin : (merging.join q p).base = q.base := rfl
  unfold reach
  rw [hjoin]
  split <;> omega

theorem reach_ofExpr_le [Scalar.Regular α] (f : Expr α) : (ofExpr f).reach ≤ f.reach := by
  unfold ofExpr
  split
  case h_1 a x =>
    have ha : (Expr.pow a (.number x)).reach = a.reach + 1 := rfl
    rw [ha]
    refine Nat.add_le_add_left ?_ a.reach
    split <;> decide
  case h_2 => rw [reach, if_pos one_beq_one]; exact Nat.le_refl _

theorem reach_toExpr (p : Power α) : p.toExpr.reach = p.reach := by
  unfold toExpr reach
  split <;> rfl

-- Grouping lets nothing reach further.
theorem total_group_reach_le [NumberText α] [Scalar.Regular α] (fs : List (Expr α)) :
    total Expr.reach (group fs) ≤ total Expr.reach fs := by
  have hmerge := @total_addAll_le _ _ _ [] (fs.map ofExpr) (lightens_reach (α := α))
  have hof : total reach (fs.map ofExpr) ≤ total Expr.reach fs := by
    rw [total, List.map_map]
    exact total_le_of_forall fun f _ => reach_ofExpr_le f
  have hto : total Expr.reach (group fs) ≤ total reach (mergeAll [] fs) := by
    rw [group_eq, total_perm (SortKey.perm_sort _ _), total, List.map_map]
    refine Nat.le_trans (total_le_of_forall (w := reach) fun p _ => ?_) (total_filter_le _ _)
    exact Nat.le_of_eq (reach_toExpr p)
  rw [mergeAll_eq] at hto
  rw [total_nil] at hmerge
  omega

end Power

namespace Term

-- A term as an addend, which a number in front of it does not show in.
def extent (own : Nat) (u : Term α) : Nat :=
  max 1 (total Expr.reach u.factors - 1) + own

theorem lightens_extent (own : Nat) : merging.Lightens (extent (α := α) own) := by
  intro u t _
  have hjoin : extent own (merging.join u t) = extent own u := rfl
  rw [hjoin, extent, extent]
  omega

theorem span_toExpr_le (u : Term α) : u.toExpr.span ≤ max 2 (total Expr.reach u.factors) := by
  obtain ⟨x, fs⟩ := u
  cases fs with
  | nil => exact Nat.le_refl 2
  | cons f fs =>
    have hone := Expr.span_foldl_mul_le f fs
    have hneg := Expr.reach_foldl_mul_le f fs
    have hnumber := Expr.span_foldl_mul_le (.mul (.number x) f) fs
    have hmul : (Expr.mul (.number x) f).span = f.reach := Nat.zero_add _
    have hf := f.span_le_reach
    simp only [toExpr, total_cons]
    split
    case isTrue => exact Nat.le_max_left ..
    case isFalse =>
      split
      case isTrue => omega
      case isFalse =>
        split
        case isTrue  =>
          have hspan : (Expr.neg (fs.foldl .mul f)).span = (fs.foldl .mul f).reach := rfl
          omega
        case isFalse => omega

theorem reach_toExpr_le (u : Term α) :
    u.toExpr.reach ≤ max 2 (total Expr.reach u.factors + if u.coefficient == 1 then 0 else 1) := by
  have hspan := span_toExpr_le u
  have hle := u.toExpr.reach_le_span
  obtain ⟨x, fs⟩ := u
  cases fs with
  | nil => exact Nat.le_max_left ..
  | cons f fs =>
    have hf := f.two_le_reach
    have hone := Expr.reach_foldl_mul_le f fs
    by_cases h : x == 1
    case neg =>
      simp only [total_cons, if_neg h] at *
      omega
    case pos =>
      simp only [total_cons, if_pos h, toExpr] at *
      split
      case isTrue  => exact Nat.le_max_left ..
      case isFalse => omega

end Term

namespace Expr

variable {own : Nat} {t s : Expr α}

omit [Scalar α] in
theorem span_of_isSum (hs : s.isSum) : s.reach = s.span := by
  have ⟨op, a, b, heq, ho⟩ := exists_of_isSum hs
  subst heq
  rcases ho with rfl | rfl <;> rfl

omit [Scalar α] in
theorem reach_of_factors (hf : t.factors = [s]) : s.reach ≤ t.span := by
  have hle := t.total_factors_le
  rw [hf, total_cons, total_nil] at hle
  exact hle

-- The terms of a sum reach no further than the sum.
theorem total_extent_le (h : own ≤ 1) (scale : α) (t : Expr α) :
    total (Term.extent own) (t.scaledTerms scale) + 1 ≤ t.span + own := by
  induction scale, t using scaledTerms_induct with
  | add scale a b iha ihb =>
    rw [scaledTerms, total_append, span]
    omega
  | sub scale a b iha ihb =>
    rw [scaledTerms, total_append, span]
    omega
  | scaled scale t s hs ih =>
    have hspan := reach_of_factors (factors_of_scaledSum? hs).1
    have hle := s.span_le_reach
    rw [scaledTerms_of_some hs]
    omega
  | term scale t hs ht =>
    have hle := t.total_factors_le
    have htwo := t.two_le_span
    rw [scaledTerms_of_none hs ht, total_cons, total_nil, Term.extent]
    dsimp only
    omega

theorem total_extent_of_isSum (hs : s.isSum) (scale : α) :
    total (Term.extent 0) (s.scaledTerms scale) + 2 ≤ s.span := by
  have ⟨op, a, b, heq, ho⟩ := exists_of_isSum hs
  have ha := total_extent_le (Nat.zero_le 1) scale a
  subst heq
  rcases ho with rfl | rfl
  case inl =>
    have hb := total_extent_le (Nat.zero_le 1) scale b
    rw [scaledTerms, total_append, span]
    omega
  case inr =>
    have hb := total_extent_le (Nat.zero_le 1) (-scale) b
    rw [scaledTerms, total_append, span]
    omega

end Expr

end InfixAlgebra
