import Mathlib
import InfixAlgebra.Expr.Parser

namespace InfixAlgebra

inductive Phrase
  | additive
  | multiplicative
  | unary
  | power
  | primary
  deriving DecidableEq, Repr

-- What the grammar derives: `Derives p n ts t` says that the tokens `ts` are a phrase of kind `p`
-- that reads as the expression `t`, by a derivation of which no path from the root to a leaf goes
-- through more than `n` nodes of kind `unary`.
--
-- The repetitions of the grammar associate to the left, so they are left recursive here.
inductive Derives {α : Type} : Phrase → Nat → List (Token α) → Expr α → Prop
  | sum {n ts us op a b} (h : op = .add ∨ op = .sub) :
    Derives .additive n ts a → Derives .multiplicative n us b →
    Derives .additive n (ts ++ .operator op :: us) (.binary op a b)
  | addend {n ts t} : Derives .multiplicative n ts t → Derives .additive n ts t
  | product {n ts us op a b} (h : op = .mul ∨ op = .div) :
    Derives .multiplicative n ts a → Derives .unary n us b →
    Derives .multiplicative n (ts ++ .operator op :: us) (.binary op a b)
  | factor {n ts t} : Derives .unary n ts t → Derives .multiplicative n ts t
  | negation {n ts t} :
    Derives .unary n ts t → Derives .unary (n + 1) (.operator .sub :: ts) (.neg t)
  | positive {n ts t} : Derives .power n ts t → Derives .unary (n + 1) ts t
  | power {n ts us a b} :
    Derives .primary n ts a → Derives .unary n us b →
    Derives .power n (ts ++ .operator .pow :: us) (.pow a b)
  | base {n ts t} : Derives .primary n ts t → Derives .power n ts t
  | number {n} (x : α) : Derives .primary n [.number x] (.number x)
  | constant {n} (c : Constant) : Derives .primary n [.constant c] (.constant c)
  | var {n s} (h : isVariableName s) : Derives .primary n [.name s] (.var s)
  | call {n ts a} (f : Elementary) :
    Derives .additive n ts a →
    Derives .primary n (.elementary f :: .opening :: ts ++ [.closing]) (.call f [a])
  | parens {n ts a} :
    Derives .additive n ts a → Derives .primary n (.opening :: ts ++ [.closing]) a

namespace Derives

variable {α : Type} {p : Phrase} {m n : Nat} {ts : List (Token α)} {t : Expr α}

theorem mono (d : Derives p m ts t) (h : m ≤ n) : Derives p n ts t := by
  induction d generalizing n with
  | sum ho _ _ iha ihb     => exact sum ho (iha h) (ihb h)
  | addend _ ih            => exact addend (ih h)
  | product ho _ _ iha ihb => exact product ho (iha h) (ihb h)
  | factor _ ih            => exact factor (ih h)
  | power _ _ iha ihb      => exact power (iha h) (ihb h)
  | base _ ih              => exact base (ih h)
  | number x               => exact number x
  | constant c             => exact constant c
  | var hs                 => exact var hs
  | call f _ ih            => exact call f (ih h)
  | parens _ ih            => exact parens (ih h)
  | negation _ ih =>
    obtain ⟨k, rfl⟩ := Nat.exists_eq_add_of_le' h
    exact negation (ih (Nat.le_add_left _ k))
  | positive _ ih =>
    obtain ⟨k, rfl⟩ := Nat.exists_eq_add_of_le' h
    exact positive (ih (Nat.le_add_left _ k))

end Derives

end InfixAlgebra
