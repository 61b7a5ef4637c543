import Mathlib
import InfixAlgebra.Expr.Printer
import InfixAlgebra.Proofs.Parser.Language
import InfixAlgebra.Proofs.Printer.Scanning

namespace InfixAlgebra

theorem Lexing.tokens?_of_scans {α : Type} [NumberText α] {text : String} {ts : List (Token α)}
    (h : Lexeme.Scans text.toList ts []) :
    ∃ ss, (ofText text).tokens? = .ok ss ∧ ss.map (·.token) = ts := by
  have ⟨q, ss, hss, hq⟩ := h 0
  have hlex (stop : Nat) (ss : List (Spanned α)) :
      ofLexemes stop (ss.map .token) = ⟨ss, .finished stop⟩ := by
    induction ss with
    | nil          => rfl
    | cons s ss ih => rw [List.map_cons, ofLexemes, ih]
  refine ⟨ss, ?_, hss⟩
  rw [List.append_nil, Lexeme.scanFrom, List.append_nil] at hq
  rw [ofText, Lexeme.scan, hq, hlex]
  rfl

namespace Expr

variable {α : Type}

-- Trees of the shape that texts have: their variables have names that are read as such, and their
-- calls have one argument.
inductive Spellable : Expr α → Prop
  | number (x : α) : Spellable (.number x)
  | constant (c : Constant) : Spellable (.constant c)
  | var {name} (h : isVariableName name) (he : name ≠ Constant.e.name) : Spellable (.var name)
  | neg {a} : Spellable a → Spellable (.neg a)
  | binary {a b} (op : Operator) : Spellable a → Spellable b → Spellable (.binary op a b)
  | call {a} (f : Elementary) : Spellable a → Spellable (.call f [a])

mutual

def numbers : Expr α → List α
  | number x             => [x]
  | constant _ | var _   => []
  | neg a                => a.numbers
  | binary _ a b         => a.numbers ++ b.numbers
  | call _ args          => numbersOfAll args
termination_by structural t => t

def numbersOfAll : List (Expr α) → List α
  | []      => []
  | a :: as => a.numbers ++ numbersOfAll as
termination_by structural ts => ts

end

variable [Scalar α]

mutual

-- The expression with negations in place of negative numbers, and without negative zeros.
def unsigned : Expr α → Expr α
  | number x      =>
    if Scalar.lt x 0 then neg (number (-x)) else if x == 0 then number 0 else number x
  | constant c    => constant c
  | var name      => var name
  | neg a         => neg a.unsigned
  | binary op a b => binary op a.unsigned b.unsigned
  | call f args   => call f (unsignedAll args)
termination_by structural t => t

def unsignedAll : List (Expr α) → List (Expr α)
  | []      => []
  | a :: as => a.unsigned :: unsignedAll as
termination_by structural ts => ts

end

variable [NumberText α]

-- A number is displayed as a numeral that stands for it, with a minus in front if it is negative.
def Displayed (x : α) : Prop :=
  ∃ n : Numeral, n.WellFormed ∧
    if Scalar.lt x 0 then
      (NumberText.display x).toList = '-' :: n.toList ∧ NumberText.ofDecimal n.decimal = -x
    else
      (NumberText.display x).toList = n.toList ∧
        NumberText.ofDecimal n.decimal = if x == 0 then 0 else x

end Expr

namespace Phrase

def ofPrecedence : Nat → Phrase
  | 1 => additive
  | 2 => multiplicative
  | 3 => unary
  | 4 => power
  | _ => primary

end Phrase

namespace Expr

open Lexeme

variable {α : Type} [Scalar α] [NumberText α] {t : Expr α} {ts : List (Token α)}

omit [NumberText α] in
theorem precedence_cases (t : Expr α) :
    t.precedence = 1 ∨ t.precedence = 2 ∨ t.precedence = 3 ∨ t.precedence = 4 ∨
      t.precedence = 5 := by
  cases t with
  | number x =>
    simp only [precedence]
    split <;> simp
  | binary op a b => cases op <;> simp [precedence, Operator.precedence]
  | _             => simp [precedence]

-- The text of an expression is read as tokens that derive the expression, where no path of the
-- derivation has more negations and powers than the expression is deep. Only a negation has as many
-- of them as it is deep.
structure Spelled (t : Expr α) (ts : List (Token α)) : Prop where
  scans   : ∀ {rest}, Token.Ends rest → Scans t.render.toList ts rest
  derives : ∃ n, Derives (.ofPrecedence t.precedence) n ts t.unsigned ∧ n ≤ t.unsigned.depth ∧
    (t.precedence ≠ 3 → n < t.unsigned.depth)

namespace Spelled

theorem primary (h : t.Spelled ts) (hp : t.precedence = 5) :
    Derives .primary t.unsigned.depth ts t.unsigned := by
  have ⟨n, d, hn, _⟩ := h.derives
  rw [hp] at d
  exact d.mono hn

theorem unary (h : t.Spelled ts) (hp : 3 ≤ t.precedence) :
    Derives .unary t.unsigned.depth ts t.unsigned := by
  have ⟨n, d, hn, hlt⟩ := h.derives
  rcases t.precedence_cases with ht | ht | ht | ht | ht <;> rw [ht] at d hp hlt
  · omega
  · omega
  · exact d.mono hn
  · exact (Derives.positive d).mono (hlt (by decide))
  · exact (Derives.positive (.base d)).mono (hlt (by decide))

theorem multiplicative (h : t.Spelled ts) (hp : 2 ≤ t.precedence) :
    Derives .multiplicative t.unsigned.depth ts t.unsigned := by
  by_cases h₃ : 3 ≤ t.precedence
  case pos => exact .factor (h.unary h₃)
  case neg =>
    have ⟨n, d, hn, _⟩ := h.derives
    rw [show t.precedence = 2 by omega] at d
    exact d.mono hn

theorem additive (h : t.Spelled ts) : Derives .additive t.unsigned.depth ts t.unsigned := by
  by_cases h₂ : 2 ≤ t.precedence
  case pos => exact .addend (h.multiplicative h₂)
  case neg =>
    have ⟨n, d, hn, _⟩ := h.derives
    have hc := t.precedence_cases
    rw [show t.precedence = 1 by omega] at d
    exact d.mono hn

-- What is not a negation leaves room for one more power around it.
theorem exists_additive (h : t.Spelled ts) (hp : t.precedence ≠ 3) (hp' : t.precedence < 4) :
    ∃ n, n < t.unsigned.depth ∧ Derives .additive n ts t.unsigned := by
  have ⟨n, d, _, hlt⟩ := h.derives
  refine ⟨n, hlt hp, ?_⟩
  rcases t.precedence_cases with ht | ht | ht | ht | ht <;> rw [ht] at d
  · exact d
  · exact .addend d
  all_goals omega

end Spelled

end Expr

end InfixAlgebra
