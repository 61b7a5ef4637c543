import InfixAlgebra.Expr.Derivative
import InfixAlgebra.Expr.Fraction
import InfixAlgebra.Expr.Parser

namespace InfixAlgebra

inductive Source (α : Type)
  | text (s : String)
  | tree (t : Expr α)

namespace Source

variable {α : Type} [Scalar α] [NumberText α]

-- The expression that a source stands for. It nests no deeper than the configuration admits.
def resolve (config : Config α) : Source α → Except (Error α) (Expr α)
  | text s => Expr.parse config.maxDepth s
  | tree t => do
    t.checkDepth config.maxDepth
    return t

def evaluate (config : Config α) (scope : Scope α) (s : Source α) :
    Except (Error α) (Value α) := do
  (← s.resolve config).evaluate config scope

def differentiate (config : Config α) (name : String) (s : Source α) :
    Except (Error α) (Expr α) := do
  (← s.resolve config).differentiate config name

def simplify (config : Config α) (scope : Scope α) (s : Source α) :
    Except (Error α) (Simplified α) := do
  (← s.resolve config).simplify config scope

def rationalize (config : Config α) (s : Source α) : Except (Error α) (Expr α) := do
  (← s.resolve config).rationalize config

end Source

end InfixAlgebra
