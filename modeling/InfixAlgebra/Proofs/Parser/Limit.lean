import InfixAlgebra.Proofs.Parser.Running

namespace InfixAlgebra

namespace Parser

-- Limits only cut off: with a smaller allowance a parser does the same, unless it finds that it is
-- in deeper than `limit`.

variable {α β γ : Type}

def Below (limit : Nat) (p q : Parser α β) : Prop :=
  ∀ e ts, runOn p e ts = .error (.tooDeep limit) ∨ runOn p e ts = runOn q e ts

variable {limit : Nat} {u v : Parser α (Expr α)}

theorem Below.refl (p : Parser α β) : Below limit p p :=
  fun _ _ => .inr rfl

theorem Below.bind {p q : Parser α β} {f g : β → Parser α γ} (h : Below limit p q)
    (hf : ∀ b, Below limit (f b) (g b)) : Below limit (p >>= f) (q >>= g) := by
  intro e ts
  rcases h e ts with h | h
  case inl => exact .inl (runOn_bind_of_error h)
  case inr =>
    rw [runOn_bind, runOn_bind, ← h]
    cases runOn p e ts with
    | error x => exact .inr rfl
    | ok r    => exact hf r.1 e r.2

theorem Below.bind_right {p : Parser α β} {f g : β → Parser α γ}
    (hf : ∀ b, Below limit (f b) (g b)) : Below limit (p >>= f) (p >>= g) :=
  (Below.refl p).bind hf

variable (h : Below limit u v)

include h

theorem Below.chainFrom {op? : Token α → Option Operator} (rounds : List (Spanned α))
    (left : Expr α) :
    Below limit (chainFrom op? u rounds left) (chainFrom op? v rounds left) := by
  induction rounds generalizing left with
  | nil => exact .refl _
  | cons r rounds ih =>
    refine .bind_right fun o => ?_
    split
    case h_1 => exact .refl _
    case h_2 => exact .bind_right fun _ => h.bind fun b => ih _

theorem Below.chain {op? : Token α → Option Operator} :
    Below limit (chain op? u) (chain op? v) :=
  h.bind fun left => .bind_right fun rounds => h.chainFrom rounds left

theorem Below.additive : Below limit (additive u) (additive v) :=
  h.chain.chain

theorem Below.argument (f : Elementary) : Below limit (argument f u) (argument f v) := by
  refine .bind_right fun o => ?_
  split
  case h_1 => exact .bind_right fun _ => h.additive.bind fun _ => .refl _
  case h_2 => exact .bind_right fun _ => h.additive.bind fun _ => .refl _

theorem Below.primary : Below limit (primary u) (primary v) := by
  refine .bind_right fun o => ?_
  split
  case h_4 f => exact .bind_right fun _ => h.argument f
  case h_5   => exact .bind_right fun _ => h.additive.bind fun _ => .refl _
  all_goals exact .refl _

omit h

theorem Below.unary (limit limit' : Nat) {m n : Nat} (h : m ≤ n) :
    Below limit (unary (α := α) limit m) (unary limit' n) := by
  induction m generalizing n with
  | zero => exact fun _ _ => .inl rfl
  | succ m ih =>
    cases n with
    | zero => exact absurd h (Nat.not_succ_le_zero m)
    | succ n =>
      have hu := ih (Nat.le_of_succ_le_succ h)
      refine .bind_right fun o => ?_
      split
      case h_1 => exact .bind_right fun _ => hu.bind fun _ => .refl _
      case h_2 =>
        refine hu.primary.bind fun base => .bind_right fun o => ?_
        split
        case h_1 => exact .bind_right fun _ => hu.bind fun _ => .refl _
        case h_2 => exact .refl _

end Parser

end InfixAlgebra
