import InfixAlgebra.Config
import InfixAlgebra.Expr.Fraction
import InfixAlgebra.Proofs.Double.Regular
import InfixAlgebra.Proofs.Termination.Simplification

namespace InfixAlgebra

open Metered

variable {α : Type} [Scalar α] {d : Nat}

namespace Expr

theorem ends_fractionAt [NumberText α] (t : Expr α) (depth : Nat) :
    EndsAlways d (t.fractionAt depth) := by
  induction t generalizing depth with
  | number | constant | var | call =>
    rw [fractionAt]
    · exact (Ends.step depth).bind fun _ _ => .pure _
    all_goals nofun
  | neg a ih =>
    rw [fractionAt]
    exact (Ends.step depth).bind fun _ _ => (ih _).bind fun f _ => .pure _
  | binary op a b iha ihb =>
    have hboth (g : Fraction α → Fraction α → Fraction α) :
        EndsAlways d (do return g (← a.fractionAt (depth + 1)) (← b.fractionAt (depth + 1))) :=
      (iha _).bind fun f _ => (ihb _).bind fun f' _ => .pure (g f f')
    cases op with
    | pow =>
      rw [fractionAt]
      refine (Ends.step depth).bind fun _ _ => ?_
      split
      case h_1 => exact .pure _
      case h_2 =>
        refine (iha _).bind fun f _ => ?_
        split
        case isTrue  => exact .pure _
        case isFalse => exact .pure _
    | _ =>
      rw [fractionAt]
      exact (Ends.step depth).bind fun _ _ => hboth _

variable [NumberText α] [Scalar.Regular α]

theorem ends_distribute (a b : Expr α) : EndsAlways d (distribute a b) := by
  unfold distribute
  split
  case isTrue  => exact ends_product (.mul a b)
  case isFalse =>
    refine (Ends.charge _).bind fun _ _ => ?_
    refine Ends.bind (.mapM fun x _ => ?_) fun products _ => ends_sum products
    exact (ends_product _).bind fun r _ => .pure _

theorem ends_distributeTimes (a : Expr α) (k : Nat) (t : Expr α) :
    EndsAlways d (distributeTimes a k t) := by
  induction k generalizing t with
  | zero      => exact .pure t
  | succ k ih => exact (ends_distribute t a).bind fun t' _ => ih t'

theorem ends_expandAt (maxPower : Nat) (t : Expr α) (depth : Nat) :
    EndsAlways d (t.expandAt maxPower depth) := by
  induction t generalizing depth with
  | number | constant | var | call =>
    rw [expandAt]
    · exact (Ends.step depth).bind fun _ _ => ends_canonicalAt _ depth
    all_goals nofun
  | neg a ih =>
    rw [expandAt]
    exact (Ends.step depth).bind fun _ _ => (ih _).bind fun a' _ => ends_product _
  | binary op a b iha ihb =>
    cases op with
    | add | sub =>
      rw [expandAt]
      exact (Ends.step depth).bind fun _ _ => (iha _).bind fun a' _ => (ihb _).bind fun b' _ =>
        ends_sum _
    | mul =>
      rw [expandAt]
      exact (Ends.step depth).bind fun _ _ => (iha _).bind fun a' _ => (ihb _).bind fun b' _ =>
        ends_distribute a' b'
    | div =>
      rw [expandAt]
      · exact (Ends.step depth).bind fun _ _ => ends_canonicalAt _ depth
      all_goals nofun
    | pow =>
      rw [expandAt]
      refine (Ends.step depth).bind fun _ _ => (iha _).bind fun a' _ => ?_
      split
      case h_2   => exact ends_canonicalAt _ depth
      case h_1 k =>
        split
        case isTrue  => exact ends_distributeTimes a' _ a'
        case isFalse => exact ends_canonicalAt _ depth

theorem ends_reduce (f : Fraction α) : EndsAlways d (reduce f) := by
  unfold reduce
  split
  case h_2 => exact .pure _
  case h_1 =>
    split
    case isFalse => exact .pure _
    case isTrue  =>
      split
      case h_1 => exact ends_sum _
      case h_2 => exact .pure _

theorem ends_rationalized (maxPower : Nat) (t : Expr α) :
    EndsAlways d (rationalized maxPower t) :=
  (ends_fractionAt t 1).bind fun f _ => (ends_expandAt maxPower f.numerator 1).bind fun _ _ =>
    (ends_expandAt maxPower f.denominator 1).bind fun _ _ => ends_reduce _

-- Rewriting comes to an end by itself: whatever the other limits are, some number of operations is
-- enough for an expression.
theorem exists_forall_ne_outOfOperations (t : Expr α) (maxDepth maxExpandPower : Nat) :
    ∃ bound, ∀ config : Config α, config.maxDepth = maxDepth →
      config.maxExpandPower = maxExpandPower → bound ≤ config.maxOperations → ∀ k,
        t.canonical config ≠ .error (.outOfOperations k) ∧
          t.rationalize config ≠ .error (.outOfOperations k) := by
  have ⟨bound, h⟩ := (ends_canonicalAt (d := maxDepth) t 1).exists_run_ne
  have ⟨bound', h'⟩ := (ends_rationalized (d := maxDepth) maxExpandPower t).exists_run_ne
  refine ⟨max bound bound', fun config hdepth hpower hle k => ?_⟩
  have hlimits : config.toLimits = ⟨maxDepth, config.maxOperations⟩ := hdepth ▸ rfl
  rw [canonical, rationalize, hlimits, hpower]
  exact ⟨h _ ((Nat.le_max_left ..).trans hle) k, h' _ ((Nat.le_max_right ..).trans hle) k⟩

-- The coefficient goes into a sum, whose square meets another power of the same base.
theorem exists_forall_ne_outOfOperations_of_square :
    let s : Expr Float := .add (.var "x") (.number 1)
    let t : Expr Float := .sub (.mul (.number 2) (.mul s (.pow s (.number 2)))) (.div s (.var "y"))
    let config (n : Nat) : Config Float := { Config.standard with maxOperations := n }
    ∃ bound, ∀ n ≥ bound, ∀ k, t.canonical (config n) ≠ .error (.outOfOperations k) ∧
      t.rationalize (config n) ≠ .error (.outOfOperations k) := by
  intro s t config
  have ⟨bound, h⟩ :=
    exists_forall_ne_outOfOperations t (config 0).maxDepth (config 0).maxExpandPower
  exact ⟨bound, fun n hn => h (config n) rfl rfl hn⟩

end Expr

end InfixAlgebra
