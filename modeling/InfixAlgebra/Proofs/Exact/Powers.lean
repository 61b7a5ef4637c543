import InfixAlgebra.Proofs.Exact.Terms

namespace InfixAlgebra

variable {K : Type} [Field K] [LinearOrder K] {I : Interpretation K} {values : String → Exact I}

open Exact

-- The laws of powers, for bases and exponents that may be undefined.

namespace Interpretation.Lawful

theorem refines_pow_zero (hI : I.Lawful) (x : Exact I) : Refines (Scalar.pow x 0) 1 := by
  cases x with
  | none   => nofun
  | some u => exact .of_eq (hI.pow_zero u)

theorem pow_one_eq (hI : I.Lawful) (x : Exact I) : Scalar.pow x 1 = x := by
  cases x with
  | none   => rfl
  | some u => exact hI.pow_one u

theorem refines_one_pow (hI : I.Lawful) (y : Exact I) : Refines (Scalar.pow 1 y) 1 := by
  cases y with
  | none   => nofun
  | some v => exact .of_eq (hI.one_pow v)

theorem refines_pow_add (hI : I.Lawful) (x y z : Exact I) :
    Refines (Scalar.pow x y * Scalar.pow x z) (Scalar.pow x (y + z)) := by
  cases x with
  | none => nofun
  | some u =>
    cases y with
    | none => nofun
    | some v =>
      cases z with
      | none => rw [mul_comm]; nofun
      | some w =>
        intro k hk
        change (Exact.lift _ (I.pow u v) (I.pow u w) : Exact I) = some k at hk
        cases hv : I.pow u v with
        | none => rw [hv] at hk; cases hk
        | some x =>
          cases hw : I.pow u w with
          | none => rw [hv, hw] at hk; cases hk
          | some y =>
            rw [hv, hw] at hk
            exact (hI.pow_add hv hw).trans hk

end Interpretation.Lawful

namespace Power

def denote (values : String → Exact I) (p : Power (Exact I)) : Exact I :=
  Scalar.pow (p.base.denote values) p.exponent

def denoteProduct (values : String → Exact I) (powers : List (Power (Exact I))) : Exact I :=
  (powers.map (denote values)).prod

variable {p : Power (Exact I)} {powers news : List (Power (Exact I))}

@[simp]
theorem denoteProduct_cons :
    denoteProduct values (p :: powers) = p.denote values * denoteProduct values powers :=
  List.prod_cons

theorem denote_ofExpr (hI : I.Lawful) (t : Expr (Exact I)) :
    (ofExpr t).denote values = t.denote values := by
  unfold ofExpr
  split
  case h_1 => rfl
  case h_2 => exact hI.pow_one_eq _

theorem denote_toExpr (hI : I.Lawful) (p : Power (Exact I)) :
    p.toExpr.denote values = p.denote values := by
  unfold toExpr
  split
  case isTrue h  => rw [denote, Exact.eq_of_beq h, hI.pow_one_eq]
  case isFalse   => rfl

theorem refines_merge (hI : I.Lawful) (p : Power (Exact I)) (powers : List (Power (Exact I))) :
    Refines (denoteProduct values powers * p.denote values)
      (denoteProduct values (merge p powers)) := by
  induction powers with
  | nil => exact .of_eq (mul_comm ..)
  | cons q qs ih =>
    rw [merge]
    split
    case isTrue h =>
      rw [denoteProduct_cons, denoteProduct_cons, mul_right_comm, denote, denote, denote,
        ← Expr.eq_of_beq h]
      exact (hI.refines_pow_add _ _ _).mul (.refl _)
    case isFalse =>
      rw [denoteProduct_cons, denoteProduct_cons, mul_assoc]
      exact (Refines.refl _).mul ih

theorem refines_mergeAll (hI : I.Lawful) (powers : List (Power (Exact I)))
    (fs : List (Expr (Exact I))) :
    Refines (denoteProduct values powers * (fs.map (Expr.denote values)).prod)
      (denoteProduct values (mergeAll powers fs)) := by
  induction fs generalizing powers with
  | nil => exact .of_eq (mul_one _)
  | cons f fs ih =>
    rw [List.map_cons, List.prod_cons, ← mul_assoc, ← denote_ofExpr hI]
    exact ((refines_merge hI _ _).mul (.refl _)).trans (ih _)

theorem refines_nonzero (hI : I.Lawful) (powers : List (Power (Exact I))) :
    Refines (denoteProduct values powers) (denoteProduct values (nonzero powers)) := by
  induction powers with
  | nil => exact .refl _
  | cons p ps ih =>
    rw [denoteProduct_cons, nonzero, List.filter_cons]
    split
    case isTrue => exact (Refines.refl _).mul ih
    case isFalse h =>
      have hzero : p.exponent = 0 := Exact.eq_of_beq (by simpa using h)
      have hp : Refines (p.denote values) 1 := by
        rw [denote, hzero]
        exact hI.refines_pow_zero _
      have hprod := hp.mul ih
      rwa [one_mul] at hprod

-- Grouped factors stand for the product of the factors, as far as it stands for anything.
theorem refines_group (hI : I.Lawful) (fs : List (Expr (Exact I))) [NumberText (Exact I)] :
    Refines (fs.map (Expr.denote values)).prod ((group fs).map (Expr.denote values)).prod := by
  have hsort := (SortKey.perm_sort (fun t : Expr (Exact I) => ⟨t.rank, t.render⟩)
    ((nonzero (mergeAll [] fs)).map toExpr)).map (Expr.denote values)
  have hmap : ((nonzero (mergeAll [] fs)).map toExpr).map (Expr.denote values) =
      (nonzero (mergeAll [] fs)).map (denote values) := by
    rw [List.map_map]
    exact List.map_congr_left fun p _ => denote_toExpr hI p
  have hmerge : Refines (denoteProduct values [] * _) _ := refines_mergeAll hI [] fs
  rw [show denoteProduct values [] = 1 from rfl, one_mul] at hmerge
  rw [group_eq, hsort.prod_eq, hmap]
  exact hmerge.trans (refines_nonzero hI _)

end Power

end InfixAlgebra
