import InfixAlgebra.Proofs.Canonical.Sorting
import InfixAlgebra.Proofs.Canonical.Steps
import InfixAlgebra.Proofs.Exact.Denotation

namespace InfixAlgebra

variable {K : Type} [Field K] [LinearOrder K] {I : Interpretation K} {values : String → Exact I}

open Exact

namespace Term

def denote (values : String → Exact I) (t : Term (Exact I)) : Exact I :=
  t.coefficient * (t.factors.map (Expr.denote values)).prod

def denoteSum (values : String → Exact I) (terms : List (Term (Exact I))) : Exact I :=
  (terms.map (denote values)).sum

variable {t : Term (Exact I)} {terms news : List (Term (Exact I))}

@[simp]
theorem denoteSum_cons : denoteSum values (t :: terms) = t.denote values + denoteSum values terms :=
  List.sum_cons

theorem denoteSum_append :
    denoteSum values (terms ++ news) = denoteSum values terms + denoteSum values news := by
  rw [denoteSum, List.map_append, List.sum_append]
  rfl

theorem denoteSum_perm (h : terms.Perm news) : denoteSum values terms = denoteSum values news :=
  (h.map _).sum_eq

theorem denote_foldl_mul (f : Expr (Exact I)) (fs : List (Expr (Exact I))) :
    (fs.foldl .mul f).denote values = f.denote values * (fs.map (Expr.denote values)).prod := by
  induction fs generalizing f with
  | nil => exact (mul_one _).symm
  | cons g gs ih =>
    rw [List.foldl_cons, ih, List.map_cons, List.prod_cons, ← mul_assoc]
    rfl

-- A product stands for its number times its factors, as far as these stand for anything.
theorem refines_toExpr (t : Term (Exact I)) : Refines (t.denote values) (t.toExpr.denote values) := by
  obtain ⟨c, fs⟩ := t
  cases fs with
  | nil => exact .of_eq (mul_one c)
  | cons f fs =>
    simp only [denote, toExpr, List.map_cons, List.prod_cons]
    split
    case isTrue h =>
      rw [Exact.eq_of_beq h]
      exact .zero_mul _
    case isFalse =>
      split
      case isTrue h => exact .of_eq (by rw [Exact.eq_of_beq h, one_mul, denote_foldl_mul])
      case isFalse =>
        split
        case isTrue h =>
          refine .of_eq ?_
          rw [Exact.eq_of_beq h, Expr.denote, denote_foldl_mul, Exact.neg_mul, one_mul]
        case isFalse =>
          refine .of_eq ?_
          rw [denote_foldl_mul, ← mul_assoc]
          rfl

theorem denoteSum_merge (t : Term (Exact I)) (terms : List (Term (Exact I))) :
    denoteSum values (merge t terms) = denoteSum values terms + t.denote values := by
  induction terms with
  | nil => exact add_comm ..
  | cons u us ih =>
    rw [merge]
    split
    case isTrue h =>
      have hfactors := Expr.eq_of_beq_list Exact.eq_of_beq h
      rw [denoteSum_cons, denoteSum_cons, add_right_comm]
      refine congrArg (· + _) ?_
      rw [denote, denote, denote, ← hfactors, Exact.add_mul]
    case isFalse => rw [denoteSum_cons, denoteSum_cons, ih, add_assoc]

theorem denoteSum_mergeAll (terms news : List (Term (Exact I))) :
    denoteSum values (mergeAll terms news) = denoteSum values terms + denoteSum values news := by
  induction news generalizing terms with
  | nil => exact (add_zero _).symm
  | cons t news ih =>
    rw [denoteSum_cons, ← add_assoc, ← denoteSum_merge]
    exact ih _

theorem refines_nonzero (terms : List (Term (Exact I))) :
    Refines (denoteSum values terms) (denoteSum values (nonzero terms)) := by
  induction terms with
  | nil => exact .refl _
  | cons t ts ih =>
    rw [denoteSum_cons, nonzero, List.filter_cons]
    split
    case isTrue => exact (Refines.refl _).add ih
    case isFalse h =>
      have hzero : t.coefficient = 0 := Exact.eq_of_beq (by simpa using h)
      have ht : Refines (t.denote values) 0 := by
        rw [denote, hzero]
        exact .zero_mul _
      have hsum := ht.add ih
      rwa [zero_add] at hsum

-- Each round only moves terms from those that wait to those that are kept.
theorem refines_scaled_kept (terms : List (Term (Exact I))) :
    Refines (denoteSum values terms)
      (denoteSum values (scaled terms) + denoteSum values (kept terms)) := by
  refine (refines_nonzero terms).trans (.of_eq ?_)
  rw [← denoteSum_append]
  exact denoteSum_perm (List.filter_append_perm _ _).symm

variable [NumberText (Exact I)]

omit [NumberText (Exact I)] in
theorem denote_append (left : Expr (Exact I)) (t : Term (Exact I)) :
    Refines (left.denote values + t.denote values) ((sumOf.append left t).denote values) := by
  unfold sumOf.append
  split
  case isTrue =>
    have hneg : t.denote values = -Term.denote values ⟨-t.coefficient, t.factors⟩ := by
      rw [denote, denote, Exact.neg_mul, Exact.neg_neg]
    rw [hneg]
    refine Refines.trans ((Refines.refl _).add (refines_toExpr _).neg) (.of_eq ?_)
    exact (Exact.sub_eq_add_neg ..).symm
  case isFalse => exact (Refines.refl _).add (refines_toExpr t)

-- The sum that is written down stands for the sum of its terms.
theorem refines_sumOf (terms : List (Term (Exact I))) :
    Refines (denoteSum values terms) ((sumOf terms).denote values) := by
  have hfold (left : Expr (Exact I)) (ts : List (Term (Exact I))) :
      Refines (left.denote values + denoteSum values ts)
        ((ts.foldl sumOf.append left).denote values) := by
    induction ts generalizing left with
    | nil => exact .of_eq (add_zero _)
    | cons t ts ih =>
      rw [denoteSum_cons, ← add_assoc]
      exact ((denote_append left t).add (.refl _)).trans (ih _)
  rw [← denoteSum_perm (SortKey.perm_sort sortKey terms), sumOf]
  split
  case h_1 h => rw [h]; exact .refl _
  case h_2 t ts h =>
    rw [h, denoteSum_cons]
    exact ((refines_toExpr t).add (.refl _)).trans (hfold _ _)

end Term

theorem Expr.coefficientFrom_eq (x : Exact I) (t : Expr (Exact I)) :
    t.coefficientFrom x = x * t.coefficient := by
  have atom (x : Exact I) : x = x * 1 := (mul_one x).symm
  induction t generalizing x with
  | number y => exact congrArg (x * ·) (one_mul y).symm
  | neg a ih =>
    rw [coefficient, coefficientFrom, coefficientFrom, ih, ih (-1), Exact.neg_mul, Exact.neg_mul,
      one_mul, Exact.mul_neg]
  | binary op a b iha ihb =>
    cases op with
    | mul =>
      rw [coefficient, coefficientFrom, coefficientFrom, ihb, iha, ihb (a.coefficientFrom 1),
        mul_assoc]
      rfl
    | _ => exact atom x
  | _ => exact atom x

-- What `scale` times an expression stands for is spread over its terms.
theorem Expr.mul_denote_eq_scaledTerms (scale : Exact I) (t : Expr (Exact I)) :
    scale * t.denote values = Term.denoteSum values (t.scaledTerms scale) := by
  induction scale, t using scaledTerms_induct with
  | add scale a b iha ihb =>
    rw [scaledTerms, Term.denoteSum_append, ← iha, ← ihb, ← Exact.mul_add]
    rfl
  | sub scale a b iha ihb =>
    rw [scaledTerms, Term.denoteSum_append, ← iha, ← ihb, Exact.neg_mul, ← Exact.mul_neg,
      ← Exact.mul_add, ← Exact.sub_eq_add_neg]
    rfl
  | scaled scale t s hs ih =>
    rw [scaledTerms_of_some hs, ← ih, denote_eq t, (factors_of_scaledSum? hs).1, List.map_singleton,
      List.prod_singleton, mul_assoc]
  | term scale t hs ht =>
    rw [scaledTerms_of_none hs ht, Term.denoteSum, List.map_singleton, List.sum_singleton,
      Term.denote, denote_eq t, mul_assoc]

end InfixAlgebra
