import InfixAlgebra.Proofs.Canonical.Induction
import InfixAlgebra.Proofs.Exact.Powers
import InfixAlgebra.Proofs.Exact.Rational

namespace InfixAlgebra

variable {K : Type} [Field K] [LinearOrder K] {I : Interpretation K} {values : String → Exact I}

open Exact

theorem Term.denoteSum_flatMap {β : Type} (f : β → List (Term (Exact I))) (xs : List β) :
    denoteSum values (xs.flatMap f) = (xs.map fun x => denoteSum values (f x)).sum := by
  induction xs with
  | nil          => rfl
  | cons x xs ih => rw [List.flatMap_cons, denoteSum_append, ih, List.map_cons, List.sum_cons]

namespace Expr

variable {t r a a' b b' : Expr (Exact I)}

def Preserves (values : String → Exact I) (t r : Expr (Exact I)) : Prop :=
  Refines (t.denote values) (r.denote values)

def denoteAddends (values : String → Exact I) (addends : List (Exact I × Expr (Exact I))) :
    Exact I :=
  (addends.map fun (scale, t) => scale * t.denote values).sum

def PreservesSum (values : String → Exact I) (addends : List (Exact I × Expr (Exact I)))
    (r : Expr (Exact I)) : Prop :=
  Refines (denoteAddends values addends) (r.denote values)

@[simp]
theorem denoteAddends_singleton (t : Expr (Exact I)) :
    denoteAddends values [(1, t)] = t.denote values := by
  rw [denoteAddends, List.map_singleton, List.sum_singleton]
  exact one_mul _

theorem denoteSum_scaledTermsOfAll (addends : List (Exact I × Expr (Exact I))) :
    Term.denoteSum values (scaledTermsOfAll addends) = denoteAddends values addends := by
  rw [scaledTermsOfAll, Term.denoteSum_flatMap, denoteAddends]
  exact congrArg List.sum (List.map_congr_left fun _ _ => (mul_denote_eq_scaledTerms ..).symm)

variable [NumberText (Exact I)]

omit [NumberText (Exact I)] in
-- Each round of settling only replaces products by their canonical forms.
theorem refines_of_settles {terms result : List (Term (Exact I))}
    (h : Term.Settles (Preserves values) terms result) :
    Refines (Term.denoteSum values terms) (Term.denoteSum values result) := by
  induction h with
  | @done terms hnil =>
    have hkept : Refines (Term.denoteSum values terms) _ := Term.refines_scaled_kept terms
    rw [hnil] at hkept
    exact hkept.trans (.of_eq (zero_add _))
  | @round terms products result _ hp _ ih =>
    refine (Term.refines_scaled_kept terms).trans (Refines.trans ?_ ih)
    have hproducts : Refines (Term.denoteSum values (Term.scaled terms))
        (products.map (denote values)).sum := by
      refine Refines.sum (List.forall₂_map_left_iff.mpr (List.forall₂_map_right_iff.mpr ?_))
      exact hp.imp fun t r hr => (Term.refines_toExpr t).trans hr
    have hspread : Term.denoteSum values (products.reverse.flatMap (scaledTerms 1)) =
        (products.map (denote values)).sum := by
      rw [Term.denoteSum_flatMap, ← (products.reverse_perm.map (denote values)).sum_eq]
      refine congrArg List.sum (List.map_congr_left fun t _ => ?_)
      rw [← mul_denote_eq_scaledTerms, one_mul]
    rw [Term.denoteSum_mergeAll, hspread, add_comm]
    exact (Refines.refl _).add hproducts

theorem preservesSum_of_sumsTo {addends : List (Exact I × Expr (Exact I))}
    (h : SumsTo (Preserves values) addends r) : PreservesSum values addends r := by
  have ⟨terms, hs, hr⟩ := h
  have hterms := refines_of_settles hs
  rw [Term.denoteSum_mergeAll, denoteSum_scaledTermsOfAll] at hterms
  rw [hr]
  exact ((Refines.of_eq (zero_add _).symm).trans hterms).trans (Term.refines_sumOf terms)

theorem refines_of_spreads (hI : I.Lawful) {u u' : Term (Exact I)}
    (h : Spreads (PreservesSum values) u u') :
    Refines (u.denote values) (u'.denote values) := by
  cases h with
  | none => exact .refl _
  | @into c before after s r _ _ _ hsum =>
    rw [PreservesSum, denoteAddends_singleton] at hsum
    have hfactors : Term.denote values ⟨c, before ++ s :: after⟩ = (before.map (denote values)).prod *
        (c * s.denote values * (after.map (denote values)).prod) := by
      rw [Term.denote, List.map_append, List.prod_append, List.map_cons, List.prod_cons,
        mul_left_comm, mul_assoc]
    have hgroup : Refines ((before ++ r :: after).map (denote values)).prod _ :=
      Power.refines_group hI _
    rw [List.map_append, List.prod_append, List.map_cons, List.prod_cons] at hgroup
    rw [hfactors, Term.denote, one_mul]
    exact ((Refines.refl _).mul (hsum.mul (.refl _))).trans hgroup

theorem preserves_of_multipliesTo (hI : I.Lawful) (h : MultipliesTo (PreservesSum values) t r) :
    Preserves values t r := by
  have hgroup : Refines (t.denote values)
      (Term.denote values ⟨t.coefficient, Power.group t.factors⟩) := by
    rw [denote_eq t]
    exact (Refines.refl _).mul (Power.refines_group hI _)
  cases h with
  | zero hz =>
    rw [Preserves, denote_eq t, Exact.eq_of_beq hz]
    exact .zero_mul _
  | @sum u s _ _ hu _ _ hsum =>
    rw [PreservesSum, denoteAddends_singleton] at hsum
    exact ((hgroup.trans (refines_of_spreads hI hu)).trans (Term.refines_toExpr u)).trans hsum
  | @term u _ hu _ =>
    exact (hgroup.trans (refines_of_spreads hI hu)).trans (Term.refines_toExpr u)

omit [NumberText (Exact I)]

theorem refines_of_fold? {op : Operator} (h : fold? op a b = some r) :
    Refines ((binary op a b).denote values) (r.denote values) := by
  unfold fold? at h
  split at h
  case h_1 x y =>
    dsimp only at h
    split at h
    case isTrue  => cases h; exact .refl _
    case isFalse => cases h
  case h_2 => cases h

theorem preserves_quotient (a b : Expr (Exact I)) : Preserves values (.div a b) (quotient a b) := by
  unfold quotient
  cases hf : fold? .div a b with
  | some r => exact refines_of_fold? hf
  | none =>
    simp only [Option.getD_none]
    have hdiv : (Expr.div a b).denote values = a.denote values / b.denote values := rfl
    rw [Preserves, hdiv]
    split
    case isTrue h => rw [eq_of_isNumber h]; exact Exact.refines_div_one _
    case isFalse =>
      split
      case isTrue h =>
        rw [eq_of_isNumber (Bool.and_eq_true_iff.mp h).1]
        exact Exact.refines_zero_div _
      case isFalse =>
        split
        case isTrue h =>
          rw [eq_of_beq (Bool.and_eq_true_iff.mp h).1]
          exact Exact.refines_div_self _
        case isFalse => exact .refl _

theorem preserves_power (hI : I.Lawful) (a b : Expr (Exact I)) :
    Preserves values (.pow a b) (power a b) := by
  unfold power
  have hpow : (Expr.pow a b).denote values = Scalar.pow (a.denote values) (b.denote values) := rfl
  rw [Preserves, hpow]
  split
  case isTrue h =>
    cases Bool.or_eq_true_iff.mp h with
    | inl hb => rw [eq_of_isNumber hb]; exact hI.refines_pow_zero _
    | inr ha => rw [eq_of_isNumber ha]; exact hI.refines_one_pow _
  case isFalse =>
    split
    case isTrue h => rw [eq_of_isNumber h]; exact .of_eq (hI.pow_one_eq _)
    case isFalse =>
      cases hf : fold? .pow a b with
      | some r => exact refines_of_fold? hf
      | none   => exact .refl _

theorem preserves_application (f : Elementary) {args args' : List (Expr (Exact I))}
    (h : List.Forall₂ (Preserves values) args args') :
    Preserves values (.call f args) (application f args') := by
  have hcall : Preserves values (.call f args) (.call f args') := by
    cases h with
    | nil => exact .refl _
    | cons h hs =>
      cases hs with
      | nil  => exact Refines.elementary f h
      | cons => nofun
  unfold application
  split
  case h_1 x =>
    dsimp only
    split
    case isTrue  => exact hcall
    case isFalse => exact hcall
  case h_2 => exact hcall

theorem preserves_of_becomes (hI : I.Lawful)
    (h : Becomes (Preserves values) (PreservesSum values) (Preserves values) t r) :
    Preserves values t r := by
  cases h with
  | number   => exact .refl _
  | constant => exact .refl _
  | var      => exact .refl _
  | neg ha hr => exact (Refines.neg ha).trans hr
  | sum _ ha hb hr =>
    rw [PreservesSum, denoteAddends_singleton] at hr
    exact (Refines.apply _ ha hb).trans hr
  | mul ha hb hr => exact (Refines.apply _ ha hb).trans hr
  | div ha hb    => exact (Refines.apply _ ha hb).trans (preserves_quotient _ _)
  | pow ha hb    => exact (Refines.apply _ ha hb).trans (preserves_power hI _ _)
  | call hargs   => exact preserves_application _ hargs

variable [NumberText (Exact I)]

-- Simplification preserves values: where an expression is defined, its canonical form is defined
-- and stands for the same, whatever the interpretation of its symbols.
theorem denote_canonical (hI : I.Lawful) {config : Config (Exact I)} {v : K}
    (h : t.canonical config = .ok r) (ht : t.denote values = some v) :
    r.denote values = some v :=
  canonical_induct (fun _ _ => preservesSum_of_sumsTo) (fun _ _ => preserves_of_multipliesTo hI)
    (fun _ _ => preserves_of_becomes hI) h v ht

-- A coefficient goes into the difference next to it, and two powers of `x` are merged into one. At
-- zero the expression is not defined, though its canonical form is.
theorem denote_canonical_of_scaled_difference :
    let x : Expr (Exact .rational) := .var "x"
    let n (q : ℚ) : Expr (Exact .rational) := .number (some q)
    let t := add (mul (mul (n 2) (.sub x (n 1))) x) (mul (pow x (.neg (n 1))) (pow x (n 2)))
    let r := add (mul (add (n (-2)) (mul (n 2) x)) x) x
    Interpretation.rational.Lawful ∧ t.canonical .standard = .ok r ∧
      t.denote (fun _ => some 3) = some 15 ∧ r.denote (fun _ => some 3) = some 15 := by
  intro x n t r
  have h : t.canonical .standard = .ok r := by with_unfolding_all rfl
  have ht : t.denote (fun _ => some 3) = some 15 := by with_unfolding_all rfl
  exact ⟨Interpretation.lawful_rational, h, ht,
    denote_canonical Interpretation.lawful_rational h ht⟩

end Expr

end InfixAlgebra
