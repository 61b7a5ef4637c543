import Mathlib
import InfixAlgebra.Expr.Basic

namespace InfixAlgebra

namespace Expr

variable {α : Type} [BEq α]

-- Expressions are compared as their numbers are.

mutual

theorem eq_of_same (heq : ∀ {x y : α}, x == y → x = y) : (a b : Expr α) → a.same b → a = b
  | number x, b, h => by
    cases b with
    | number y => exact congrArg number (heq h)
    | _        => cases h
  | constant c, b, h => by
    cases b with
    | constant d => exact congrArg constant (beq_iff_eq.mp h)
    | _          => cases h
  | var x, b, h => by
    cases b with
    | var y => exact congrArg var (beq_iff_eq.mp h)
    | _     => cases h
  | neg a, b, h => by
    cases b with
    | neg b => exact congrArg neg (eq_of_same heq a b h)
    | _     => cases h
  | binary op a b, c, h => by
    cases c with
    | binary op' a' b' =>
      simp only [same, Bool.and_eq_true, beq_iff_eq] at h
      rw [h.1.1, eq_of_same heq a a' h.1.2, eq_of_same heq b b' h.2]
    | _ => cases h
  | call f as, b, h => by
    cases b with
    | call g bs =>
      simp only [same, Bool.and_eq_true, beq_iff_eq] at h
      rw [h.1, eq_of_sameAll heq as bs h.2]
    | _ => cases h
termination_by structural a => a

theorem eq_of_sameAll (heq : ∀ {x y : α}, x == y → x = y) :
    (as bs : List (Expr α)) → sameAll as bs → as = bs
  | [], bs, h => by
    cases bs with
    | nil => rfl
    | cons => cases h
  | a :: as, bs, h => by
    cases bs with
    | nil => cases h
    | cons b bs =>
      simp only [sameAll, Bool.and_eq_true] at h
      rw [eq_of_same heq a b h.1, eq_of_sameAll heq as bs h.2]
termination_by structural as => as

end

mutual

theorem same_comm (hcomm : ∀ x y : α, (x == y) = (y == x)) : (a b : Expr α) → a.same b = b.same a
  | number x, b   => by cases b <;> first | rfl | exact hcomm ..
  | constant c, b => by cases b <;> first | rfl | exact BEq.comm
  | var x, b      => by cases b <;> first | rfl | exact BEq.comm
  | neg a, b      => by
    cases b with
    | neg b => exact same_comm hcomm a b
    | _     => rfl
  | binary op a b, c => by
    cases c with
    | binary op' a' b' =>
      simp only [same]
      rw [same_comm hcomm a, same_comm hcomm b, show (op == op') = (op' == op) from BEq.comm]
    | _ => rfl
  | call f as, b => by
    cases b with
    | call g bs =>
      simp only [same]
      rw [sameAll_comm hcomm as, show (f == g) = (g == f) from BEq.comm]
    | _ => rfl
termination_by structural a => a

theorem sameAll_comm (hcomm : ∀ x y : α, (x == y) = (y == x)) :
    (as bs : List (Expr α)) → sameAll as bs = sameAll bs as
  | [], bs => by cases bs <;> rfl
  | a :: as, bs => by
    cases bs with
    | nil => rfl
    | cons b bs =>
      simp only [sameAll]
      rw [same_comm hcomm a, sameAll_comm hcomm as]
termination_by structural as => as

end

mutual

theorem same_self (hself : ∀ x : α, x == x) : (a : Expr α) → a.same a
  | number x      => hself x
  | constant c    => beq_self_eq_true c
  | var x         => beq_self_eq_true x
  | neg a         => same_self hself a
  | binary op a b => by
    simp only [same, beq_self_eq_true, same_self hself a, same_self hself b, Bool.and_self]
  | call f as     => by
    simp only [same, beq_self_eq_true, sameAll_self hself as, Bool.and_self]
termination_by structural a => a

theorem sameAll_self (hself : ∀ x : α, x == x) : (as : List (Expr α)) → sameAll as as
  | []      => rfl
  | a :: as => by
    simp only [sameAll, same_self hself a, sameAll_self hself as, Bool.and_self]
termination_by structural as => as

end

instance {α : Type} [DecidableEq α] : DecidableEq (Expr α) := fun a b =>
  decidable_of_iff (same a b)
    ⟨eq_of_same beq_iff_eq.mp a b, fun h => h ▸ same_self beq_self_eq_true a⟩

instance [LawfulBEq α] : LawfulBEq (Expr α) where
  eq_of_beq h := eq_of_same eq_of_beq _ _ h
  rfl         := same_self (fun _ => beq_self_eq_true _) _

variable {as bs : List (Expr α)}

theorem eq_of_beq_list (heq : ∀ {x y : α}, x == y → x = y) (h : as == bs) : as = bs := by
  induction as generalizing bs with
  | nil =>
    cases bs with
    | nil  => rfl
    | cons => cases h
  | cons a as ih =>
    cases bs with
    | nil => cases h
    | cons b bs =>
      rw [List.cons_beq_cons, Bool.and_eq_true] at h
      rw [eq_of_same heq a b h.1, ih h.2]

theorem beq_list_comm (hcomm : ∀ x y : α, (x == y) = (y == x)) (as bs : List (Expr α)) :
    (as == bs) = (bs == as) := by
  induction as generalizing bs with
  | nil => cases bs <;> rfl
  | cons a as ih =>
    cases bs with
    | nil => rfl
    | cons b bs =>
      rw [List.cons_beq_cons, List.cons_beq_cons, ih]
      exact congrArg (· && _) (same_comm hcomm a b)

end Expr

end InfixAlgebra
