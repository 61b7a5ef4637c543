import InfixAlgebra.Expr.Basic

namespace InfixAlgebra

namespace Expr

variable {α : Type} [Scalar α] [NumberText α]

-- How strongly the outermost operation binds. A negative number reads as a negation.
def precedence : Expr α → Nat
  | binary op _ _ => op.precedence
  | neg _         => 3
  | number x      => if Scalar.lt x 0 then 3 else 5
  | _             => 5

def parenthesized (needed : Bool) (text : String) : String :=
  if needed then "(" ++ text ++ ")" else text

-- An operand needs parentheses where it would otherwise be torn apart or regrouped. An exponent
-- may be negated as it is.
def leftNeedsParens (op : Operator) (a : Expr α) : Bool :=
  if op.isRightAssociative then a.precedence ≤ op.precedence else a.precedence < op.precedence

def rightNeedsParens (op : Operator) (b : Expr α) : Bool :=
  if op.isRightAssociative then
    b.precedence < op.precedence && b.precedence != 3
  else
    b.precedence ≤ op.precedence

mutual

def render : Expr α → String
  | number x      => NumberText.display x
  | constant c    => c.name
  | var name      => name
  | neg a         => "-" ++ parenthesized (a.precedence < 3) a.render
  | binary op a b =>
    parenthesized (leftNeedsParens op a) a.render ++ " " ++ op.symbol.toString ++ " " ++
      parenthesized (rightNeedsParens op b) b.render
  | call f args   => f.name ++ "(" ++ renderAll args ++ ")"
termination_by structural t => t

def renderAll : List (Expr α) → String
  | []      => ""
  | [a]     => a.render
  | a :: as => a.render ++ ", " ++ renderAll as
termination_by structural ts => ts

end

instance : ToString (Expr α) := ⟨render⟩

end Expr

end InfixAlgebra
