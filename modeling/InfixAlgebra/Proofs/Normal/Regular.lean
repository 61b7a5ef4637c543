import Mathlib
import InfixAlgebra.Expr.Term

namespace InfixAlgebra

-- The laws of numbers that the shape of products and sums rests on. Numbers in double precision
-- obey them as exact ones do.
class Scalar.Regular (α : Type) [Scalar α] : Prop where
  one_mul_eq (x : α) : 1 * x = x
  neg_one_mul_neg (x : α) : -1 * -x = x
  beq_comm (x y : α) : (x == y) = (y == x)
  eq_one {x : α} : x == 1 → x = 1
  eq_neg_one {x : α} : x == -1 → x = -1
  one_beq_one : (1 : α) == 1
  not_one_beq_zero : ¬(1 : α) == 0
  not_one_lt_zero : ¬Scalar.lt (1 : α) 0
  not_neg_beq_zero {x : α} : Scalar.lt x 0 → ¬-x == 0

open Scalar.Regular

namespace Expr

variable {α : Type}

def isAtom : Expr α → Bool
  | number _ | neg _ | mul _ _ => false
  | _                          => true

variable {f t : Expr α} {fs : List (Expr α)}

theorem isAtom_of_isSum (h : t.isSum) : t.isAtom := by
  unfold isSum at h
  split at h
  case h_1 => rfl
  case h_2 => rfl
  case h_3 => cases h

theorem factors_of_isAtom (h : t.isAtom) : t.factors = [t] := by
  cases t with
  | binary op a b =>
    cases op with
    | mul => cases h
    | _   => rfl
  | number | neg => cases h
  | _            => rfl

theorem isAtom_of_mem_factors (h : f ∈ t.factors) : f.isAtom := by
  induction t with
  | number x => cases h
  | neg a ih => exact ih h
  | binary op a b iha ihb =>
    cases op with
    | mul => exact (List.mem_append.mp h).elim iha ihb
    | _   => rw [List.mem_singleton.mp h]; rfl
  | _ => rw [List.mem_singleton.mp h]; rfl

theorem factors_foldl_mul (hfs : ∀ f ∈ fs, f.isAtom) :
    (fs.foldl .mul t).factors = t.factors ++ fs := by
  induction fs generalizing t with
  | nil => exact (List.append_nil _).symm
  | cons f fs ih =>
    have ⟨hf, hfs⟩ := List.forall_mem_cons.mp hfs
    rw [List.foldl_cons, ih hfs, factors, factors_of_isAtom hf]
    exact (List.append_cons ..).symm

variable [Scalar α] {x : α}

theorem coefficientFrom_of_isAtom (h : t.isAtom) : t.coefficientFrom x = x := by
  cases t with
  | binary op a b =>
    cases op with
    | mul => cases h
    | _   => rfl
  | number | neg => cases h
  | _            => rfl

theorem coefficientFrom_foldl_mul (hfs : ∀ f ∈ fs, f.isAtom) :
    (fs.foldl .mul t).coefficientFrom x = t.coefficientFrom x := by
  induction fs generalizing t with
  | nil => rfl
  | cons f fs ih =>
    have ⟨hf, hfs⟩ := List.forall_mem_cons.mp hfs
    rw [List.foldl_cons, ih hfs, coefficientFrom, coefficientFrom_of_isAtom hf]

end Expr

namespace Term

variable {α : Type} [Scalar α] [Scalar.Regular α] {u : Term α} {f : Expr α} {fs : List (Expr α)}

theorem toExpr_one : (mk 1 (f :: fs)).toExpr = fs.foldl .mul f := by
  simp only [toExpr, if_neg not_one_beq_zero, if_pos one_beq_one]

omit [Scalar.Regular α] in
theorem toExpr_number {x : α} (h₀ : ¬x == 0) (h₁ : ¬x == 1) (h₂ : ¬x == -1) :
    (mk x (f :: fs)).toExpr = fs.foldl .mul (.mul (.number x) f) := by
  simp only [toExpr, if_neg h₀, if_neg h₁, if_neg h₂]

inductive Written : Term α → Expr α → Prop
  | alone (x : α) : Written ⟨x, []⟩ (.number x)
  | one (f : Expr α) (fs : List (Expr α)) : Written ⟨1, f :: fs⟩ (fs.foldl .mul f)
  | neg_one (f : Expr α) (fs : List (Expr α)) : Written ⟨-1, f :: fs⟩ (.neg (fs.foldl .mul f))
  | number {x : α} (f : Expr α) (fs : List (Expr α)) : ¬x == 1 → ¬x == -1 →
    Written ⟨x, f :: fs⟩ (fs.foldl .mul (.mul (.number x) f))

theorem written_toExpr (hu : ¬u.coefficient == 0) : Written u u.toExpr := by
  obtain ⟨x, fs⟩ := u
  cases fs with
  | nil => exact .alone x
  | cons f fs =>
    simp only [toExpr, if_neg hu]
    split
    case isTrue h  => exact eq_one h ▸ .one f fs
    case isFalse h₁ =>
      split
      case isTrue h   => exact eq_neg_one h ▸ .neg_one f fs
      case isFalse h₂ => exact .number f fs h₁ h₂

-- Products are read as they are written.
theorem ofExpr_toExpr (hu : ¬u.coefficient == 0) (hfs : ∀ f ∈ u.factors, f.isAtom) :
    ofExpr u.toExpr = u := by
  have hwritten := written_toExpr hu
  generalize u.toExpr = t at hwritten
  cases hwritten with
  | alone x => exact congrArg (mk · []) (one_mul_eq x)
  | one f fs =>
    have ⟨hf, hfs⟩ := List.forall_mem_cons.mp hfs
    rw [ofExpr, Expr.coefficient, Expr.coefficientFrom_foldl_mul hfs, Expr.factors_foldl_mul hfs,
      Expr.coefficientFrom_of_isAtom hf, Expr.factors_of_isAtom hf]
    rfl
  | neg_one f fs =>
    have ⟨hf, hfs⟩ := List.forall_mem_cons.mp hfs
    rw [ofExpr, Expr.coefficient, Expr.coefficientFrom, Expr.factors,
      Expr.coefficientFrom_foldl_mul hfs, Expr.factors_foldl_mul hfs,
      Expr.coefficientFrom_of_isAtom hf, Expr.factors_of_isAtom hf]
    rfl
  | number f fs =>
    have ⟨hf, hfs⟩ := List.forall_mem_cons.mp hfs
    rw [ofExpr, Expr.coefficient, Expr.coefficientFrom_foldl_mul hfs, Expr.factors_foldl_mul hfs,
      Expr.coefficientFrom, Expr.factors, Expr.coefficientFrom_of_isAtom hf,
      Expr.factors_of_isAtom hf, Expr.coefficientFrom, one_mul_eq]
    rfl

theorem coefficient_toExpr (hu : ¬u.coefficient == 0) (hfs : ∀ f ∈ u.factors, f.isAtom) :
    u.toExpr.coefficient = u.coefficient :=
  congrArg coefficient (ofExpr_toExpr hu hfs)

theorem factors_toExpr (hu : ¬u.coefficient == 0) (hfs : ∀ f ∈ u.factors, f.isAtom) :
    u.toExpr.factors = u.factors :=
  congrArg factors (ofExpr_toExpr hu hfs)

theorem factors_toExpr_of_isSum (hu : ¬u.coefficient == 0) (hf : u.factors = [f]) (hs : f.isSum) :
    u.toExpr.factors = [f] := by
  have hatom : ∀ f ∈ u.factors, f.isAtom := by
    rw [hf, List.forall_mem_singleton]
    exact Expr.isAtom_of_isSum hs
  exact (factors_toExpr hu hatom).trans hf

end Term

end InfixAlgebra
