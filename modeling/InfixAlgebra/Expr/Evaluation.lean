import InfixAlgebra.Config
import InfixAlgebra.Expr.Basic
import InfixAlgebra.Value

namespace InfixAlgebra

namespace Expr

variable {α : Type} [Scalar α]

-- The value of an expression that is found at the given depth. Every node is paid for before
-- anything else happens to it, and operands are evaluated from left to right.
def evaluateAt (scope : Scope α) (t : Expr α) (depth : Nat) : Metered α (Value α) := do
  Metered.step depth
  match t with
  | number x      => return .scalar x
  | constant c    => return .scalar (Scalar.constant c)
  | var name      =>
    match scope.find? name with
    | some v => return v
    | none   => throw (.unbound name)
  | neg a         => return (← a.evaluateAt scope (depth + 1)).map (-·)
  | binary op a b =>
    let x ← a.evaluateAt scope (depth + 1)
    let y ← b.evaluateAt scope (depth + 1)
    x.combine op y
  | call f [a]    => return (← a.evaluateAt scope (depth + 1)).map (Scalar.elementary f)
  | call f args   => throw (.unsupported (.arguments f args.length))
termination_by structural t

def evaluate (config : Config α) (scope : Scope α) (t : Expr α) : Except (Error α) (Value α) :=
  (t.evaluateAt scope 1).run config.toLimits

end Expr

end InfixAlgebra
