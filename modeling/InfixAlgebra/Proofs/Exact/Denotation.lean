import Mathlib
import InfixAlgebra.Expr.Evaluation
import InfixAlgebra.Proofs.Canonical.Equality
import InfixAlgebra.Proofs.Canonical.Running
import InfixAlgebra.Proofs.Exact.Basic

namespace InfixAlgebra

variable {K : Type} [Field K] [LinearOrder K] {I : Interpretation K}

namespace Expr

mutual

-- What an expression stands for where its variables stand for `values`. A call with any other
-- number of arguments than one stands for nothing.
def denote (values : String → Exact I) : Expr (Exact I) → Exact I
  | number x      => x
  | constant c    => Scalar.constant c
  | var name      => values name
  | neg a         => -a.denote values
  | binary op a b => op.apply (a.denote values) (b.denote values)
  | call f args   => denoteCall values f args
termination_by structural t => t

def denoteCall (values : String → Exact I) (f : Elementary) : List (Expr (Exact I)) → Exact I
  | []          => none
  | [a]         => Scalar.elementary f (a.denote values)
  | _ :: _ :: _ => none
termination_by structural ts => ts

end

variable {values : String → Exact I} {a b : Expr (Exact I)}

-- Exact numbers are equal if they compare as equal, and so are expressions of them.
theorem eq_of_beq (h : a == b) : a = b :=
  eq_of_same Exact.eq_of_beq a b h

theorem eq_of_isNumber {x : Exact I} (h : a.isNumber x) : a = number x := by
  cases a with
  | number y => exact congrArg number (Exact.eq_of_beq h)
  | _        => cases h

-- A number times an expression is its coefficient times its factors.
theorem mul_denote (x : Exact I) (t : Expr (Exact I)) :
    x * t.denote values = t.coefficientFrom x * (t.factors.map (denote values)).prod := by
  have atom (x : Exact I) (t : Expr (Exact I)) :
      x * t.denote values = x * ([t].map (denote values)).prod := by
    rw [List.map_singleton, List.prod_singleton]
  induction t generalizing x with
  | number y     => exact (mul_one (x * y)).symm
  | constant c   => exact atom ..
  | var name     => exact atom ..
  | call f args  => exact atom ..
  | neg a ih =>
    rw [coefficientFrom, factors, ← ih, Exact.neg_mul, ← Exact.mul_neg]
    rfl
  | binary op a b iha ihb =>
    cases op with
    | mul =>
      rw [coefficientFrom, factors, List.map_append, List.prod_append, mul_comm (List.prod _),
        ← mul_assoc, ← ihb, mul_assoc, mul_comm (b.denote values), ← mul_assoc, ← iha, mul_assoc]
      rfl
    | _ => exact atom ..

theorem denote_eq (t : Expr (Exact I)) :
    t.denote values = t.coefficient * (t.factors.map (denote values)).prod := by
  rw [coefficient, ← mul_denote, one_mul]

variable {scope : Scope (Exact I)} {t : Expr (Exact I)} {v : Value (Exact I)}

-- The evaluator gives what an expression stands for, where the variables are bound to numbers.
theorem eq_denote_of_gives_evaluateAt {d : Nat}
    (hscope : ∀ name v, scope.find? name = some v → v = .scalar (values name))
    (h : Metered.Gives (t.evaluateAt scope d) v) : v = .scalar (t.denote values) := by
  induction t generalizing d v with
  | number x   =>
    rw [evaluateAt] at h
    exact h.of_bind_unit.of_pure
  | constant c =>
    rw [evaluateAt] at h
    exact h.of_bind_unit.of_pure
  | var name   =>
    rw [evaluateAt] at h
    replace h := h.of_bind_unit
    split at h
    case h_1 w hw => rw [h.of_pure, hscope name w hw]; rfl
    case h_2      => exact absurd h Metered.not_gives_throw
  | neg a ih =>
    rw [evaluateAt] at h
    have ⟨w, hw, hr⟩ := h.of_bind_unit.exists_of_bind
    rw [hr.of_pure, ih hw]
    rfl
  | binary op a b iha ihb =>
    rw [evaluateAt] at h
    have ⟨x, hx, h₁⟩ := h.of_bind_unit.exists_of_bind
    have ⟨y, hy, h₂⟩ := h₁.exists_of_bind
    rw [iha hx, ihb hy] at h₂
    have ⟨_, _, _, hr⟩ := h₂
    cases op <;> cases hr <;> rfl
  | call f args ih =>
    by_cases hone : ∃ a, args = [a]
    case pos =>
      have ⟨a, ha⟩ := hone
      subst ha
      rw [evaluateAt] at h
      have ⟨w, hw, hr⟩ := h.of_bind_unit.exists_of_bind
      rw [hr.of_pure, ih a List.mem_cons_self hw]
      rfl
    case neg =>
      rw [evaluateAt.eq_7 _ _ _ _ fun a ha => hone ⟨a, ha⟩] at h
      exact absurd h.of_bind_unit Metered.not_gives_throw

-- So does a whole evaluation, unless it runs into a limit.
theorem eq_denote_of_evaluate {config : Config (Exact I)}
    (hscope : ∀ name v, scope.find? name = some v → v = .scalar (values name))
    (h : t.evaluate config scope = .ok v) : v = .scalar (t.denote values) :=
  eq_denote_of_gives_evaluateAt hscope (Metered.gives_of_run h)

end Expr

end InfixAlgebra
