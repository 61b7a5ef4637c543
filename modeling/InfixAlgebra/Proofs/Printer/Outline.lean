import InfixAlgebra.Proofs.Parser.Language
import InfixAlgebra.Proofs.Printer.Operand

namespace InfixAlgebra

-- What stands between the operators of an expression as it is printed, where nothing is looked at
-- that stands in parentheses.
inductive Primary (α : Type)
  | numeral (text : List Char)
  | constant (c : Constant)
  | var (name : String)
  | call (f : Elementary) (args : List (Expr α))
  | parens (t : Expr α)

-- What an expression is printed as, but for what its primaries are printed as. The primaries stand
-- where numbers do.

namespace Expr

variable {β : Type}

def outlineTokens : Expr β → List (Token β)
  | number p      => [.number p]
  | neg a         => .operator .sub :: a.outlineTokens
  | binary op a b => a.outlineTokens ++ .operator op :: b.outlineTokens
  | _             => []

-- An outline is a phrase of the kind that binds as strongly as a number says.
def Binds (k : Nat) (t : Expr β) : Prop :=
  ∃ n, Derives (.ofPrecedence k) n t.outlineTokens t

namespace Binds

variable {k l : Nat} {a b : Expr β}

theorem number (k : Nat) (p : β) (h : 5 ≤ k) : Binds k (.number p) := by
  have hk : Phrase.ofPrecedence k = .primary := by
    unfold Phrase.ofPrecedence
    split <;> first | rfl | omega
  exact ⟨0, hk ▸ .number p⟩

theorem of_succ (h : Binds (k + 1) a) (hk : 1 ≤ k) : Binds k a := by
  have ⟨n, d⟩ := h
  match k with
  | 1     => exact ⟨n, .addend d⟩
  | 2     => exact ⟨n, .factor d⟩
  | 3     => exact ⟨n + 1, .positive d⟩
  | 4     => exact ⟨n, .base d⟩
  | _ + 5 => exact ⟨n, d⟩

theorem mono (h : Binds l a) (hk : 1 ≤ k) (hkl : k ≤ l) : Binds k a := by
  induction l, hkl using Nat.le_induction with
  | base          => exact h
  | succ l hkl ih => exact ih (h.of_succ (Nat.le_trans hk hkl))

theorem primary (k : Nat) (p : β) (hk : 1 ≤ k) : Binds k (.number p) :=
  (number (max k 5) p (Nat.le_max_right ..)).mono hk (Nat.le_max_left ..)

theorem neg (h : Binds 3 a) : Binds 3 (.neg a) :=
  have ⟨n, d⟩ := h
  ⟨n + 1, .negation d⟩

end Binds

end Expr

namespace Operator

-- How strongly the operands of an operator have to bind. An exponent may be negated.

def leftLevel (op : Operator) : Nat :=
  if op.isRightAssociative then op.precedence + 1 else op.precedence

def rightLevel (op : Operator) : Nat :=
  if op.isRightAssociative then 3 else op.precedence + 1

theorem one_le_leftLevel (op : Operator) : 1 ≤ op.leftLevel := by
  cases op <;> decide

theorem one_le_rightLevel (op : Operator) : 1 ≤ op.rightLevel := by
  cases op <;> decide

end Operator

namespace Expr

section Outlines

variable {β : Type} {k : Nat} {op : Operator} {a b t u : Expr β}

theorem Binds.binary (ha : Binds op.leftLevel a) (hb : Binds op.rightLevel b) :
    Binds op.precedence (.binary op a b) := by
  have ⟨m, da⟩ := ha
  have ⟨n, db⟩ := hb
  replace da := da.mono (Nat.le_max_left m n)
  replace db := db.mono (Nat.le_max_right m n)
  cases op with
  | add => exact ⟨_, .sum (.inl rfl) da db⟩
  | sub => exact ⟨_, .sum (.inr rfl) da db⟩
  | mul => exact ⟨_, .product (.inl rfl) da db⟩
  | div => exact ⟨_, .product (.inr rfl) da db⟩
  | pow => exact ⟨_, .power da db⟩

-- The grammar has one reading for each line.
theorem eq_of_outlineTokens (ht : Binds 1 t) (hu : Binds 1 u)
    (h : t.outlineTokens = u.outlineTokens) : t = u := by
  have ⟨_, dt⟩ := ht
  have ⟨_, du⟩ := hu
  exact Derives.unique dt (h ▸ du)

end Outlines

variable {α : Type} [Scalar α] [NumberText α]

def magnitude (x : α) : List Char :=
  if Scalar.lt x 0 then (NumberText.display x).toList.tail else (NumberText.display x).toList

-- What an operand contributes to the outline, where it has the outline `o` itself.
def enclosed (needed : Bool) (a : Expr α) (o : Expr (Primary α)) : Expr (Primary α) :=
  if needed then .number (.parens a) else o

def outline : Expr α → Expr (Primary α)
  | number x      =>
    if Scalar.lt x 0 then .neg (.number (.numeral (magnitude x)))
    else .number (.numeral (magnitude x))
  | constant c    => .number (.constant c)
  | var name      => .number (.var name)
  | neg a         => .neg (enclosed (a.precedence < 3) a a.outline)
  | binary op a b =>
    .binary op (enclosed (leftNeedsParens op a) a a.outline)
      (enclosed (rightNeedsParens op b) b b.outline)
  | call f args   => .number (.call f args)

theorem outline_number (x : α) : (number x).outline =
    if Scalar.lt x 0 then .neg (.number (.numeral (magnitude x)))
    else .number (.numeral (magnitude x)) :=
  rfl

variable {n : Bool} {k : Nat} {op : Operator} {a b t u : Expr α}

omit [NumberText α] in
theorem leftLevel_le_precedence (h : leftNeedsParens op a = false) :
    op.leftLevel ≤ a.precedence := by
  cases op with
  | pow => exact Nat.lt_of_not_le (of_decide_eq_false h)
  | _   => exact Nat.le_of_not_lt (of_decide_eq_false h)

omit [NumberText α] in
theorem rightLevel_le_precedence (h : rightNeedsParens op b = false) :
    op.rightLevel ≤ b.precedence := by
  cases op with
  | pow =>
    cases Bool.and_eq_false_iff.mp h with
    | inl h =>
      have hb : ¬b.precedence < 4 := of_decide_eq_false h
      exact Nat.le_of_succ_le (Nat.le_of_not_lt hb)
    | inr h => exact Nat.le_of_eq (bne_eq_false_iff_eq.mp h).symm
  | _ => exact Nat.lt_of_not_le (of_decide_eq_false h)

omit [Scalar α] [NumberText α] in
theorem Binds.enclosed {l : Nat} {o : Expr (Primary α)} (h : Binds l o) (hk : 1 ≤ k)
    (hn : n = false → k ≤ l) : Binds k (enclosed n a o) := by
  cases n with
  | true  => exact .primary k _ hk
  | false => exact h.mono hk (hn rfl)

-- Parentheses stand where the grammar would read something else without them.
theorem binds_outline (t : Expr α) : Binds t.precedence t.outline := by
  induction t with
  | number x =>
    rw [precedence, outline_number]
    split
    case isTrue  => exact .neg (.primary 3 _ (by decide))
    case isFalse => exact .primary 5 _ (by decide)
  | constant c => exact .primary 5 _ (by decide)
  | var name   => exact .primary 5 _ (by decide)
  | neg a ih =>
    rw [outline]
    exact .neg (ih.enclosed (by decide) fun hn => Nat.le_of_not_lt (of_decide_eq_false hn))
  | binary op a b iha ihb =>
    rw [outline]
    exact .binary (iha.enclosed op.one_le_leftLevel leftLevel_le_precedence)
      (ihb.enclosed op.one_le_rightLevel rightLevel_le_precedence)
  | call f args => exact .primary 5 _ (by decide)

theorem eq_outline_of_outlineTokens
    (h : t.outline.outlineTokens = u.outline.outlineTokens) : t.outline = u.outline := by
  have hone (t : Expr α) : Binds 1 t.outline := by
    refine t.binds_outline.mono (Nat.le_refl 1) ?_
    rcases t.precedence_cases with ht | ht | ht | ht | ht <;> omega
  exact eq_of_outlineTokens (hone t) (hone u) h

end Expr

end InfixAlgebra
