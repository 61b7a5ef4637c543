import InfixAlgebra.Expr.Evaluation
import InfixAlgebra.Proofs.Limits.Running

namespace InfixAlgebra

open Metered (Below)

variable {α : Type} [Scalar α] {l l' : Limits}

-- No operation on values is subject to limits.

theorem Matrix.below_add (l : Limits) (m n : Matrix α) : l.Below (m.add n) (m.add n) := by
  unfold add
  split
  case isTrue  => exact .ok _
  case isFalse => exact .error rfl

theorem Matrix.below_mul (l : Limits) (m n : Matrix α) : l.Below (m.mul n) (m.mul n) := by
  unfold mul
  split
  case isTrue  => exact .ok _
  case isFalse => exact .error rfl

theorem Matrix.below_dot (l : Limits) (m n : Matrix α) : l.Below (m.dot n) (m.dot n) := by
  unfold dot
  split
  case isTrue  => exact .ok _
  case isFalse => exact .error rfl

theorem Matrix.below_rowMul (l : Limits) (m n : Matrix α) : l.Below (m.rowMul n) (m.rowMul n) := by
  unfold rowMul
  split
  case isTrue  => exact .ok _
  case isFalse => exact .error rfl

theorem Value.below_add (l : Limits) (v w : Value α) : l.Below (v.add w) (v.add w) := by
  cases v <;> cases w
  case matrix.matrix m n => exact (m.below_add l n).map matrix
  all_goals exact .ok _

theorem Value.below_mul (l : Limits) (v w : Value α) : l.Below (v.mul w) (v.mul w) := by
  cases v <;> cases w
  case matrix.matrix m n =>
    simp only [mul]
    split
    case h_1 => exact (m.below_dot l n).map scalar
    case h_2 => exact (m.below_rowMul l n).map matrix
    case h_3 => exact (m.below_mul l n).map matrix
  all_goals exact .ok _

theorem Value.below_combine (l : Limits) (op : Operator) (v w : Value α) :
    l.Below (combine op v w) (combine op v w) := by
  unfold combine
  split
  case h_1 => exact .ok _
  case h_2 => exact below_add l v w
  case h_3 => exact below_add l v _
  case h_4 => exact below_mul l v w
  case h_5 => exact .ok _
  case h_6 => exact .error rfl

theorem Expr.below_evaluateAt (h : l ≤ l') (scope : Scope α) (t : Expr α) (d : Nat) :
    Below l l' (t.evaluateAt scope d) (t.evaluateAt scope d) := by
  induction t generalizing d with
  | number x =>
    rw [evaluateAt]
    exact (Below.step h d).bind fun _ => .pure _
  | constant c =>
    rw [evaluateAt]
    exact (Below.step h d).bind fun _ => .pure _
  | var name =>
    rw [evaluateAt]
    refine (Below.step h d).bind fun _ => ?_
    split
    case h_1 => exact .pure _
    case h_2 => exact .throw rfl
  | neg a ih =>
    rw [evaluateAt]
    exact (Below.step h d).bind fun _ => (ih _).bind fun v => .pure _
  | binary op a b iha ihb =>
    rw [evaluateAt]
    refine (Below.step h d).bind fun _ => (iha _).bind fun v => (ihb _).bind fun w => ?_
    exact .lift (v.below_combine l op w)
  | call f args ih =>
    match args with
    | [a] =>
      rw [evaluateAt]
      exact (Below.step h d).bind fun _ => (ih a List.mem_cons_self _).bind fun v => .pure _
    | []          => exact (Below.step h d).bind fun _ => .throw rfl
    | _ :: _ :: _ => exact (Below.step h d).bind fun _ => .throw rfl

end InfixAlgebra
