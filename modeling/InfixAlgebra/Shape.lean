namespace InfixAlgebra

structure Shape where
  rows : Nat
  cols : Nat
  isVector : Bool
  deriving DecidableEq, Repr

inductive ValueShape
  | scalar
  | matrix (s : Shape)
  deriving DecidableEq, Repr

def Shape.describe (s : Shape) : String :=
  if s.isVector then
    s!"vector of length {s.rows}"
  else
    s!"{s.rows}x{s.cols} matrix"

def ValueShape.describe : ValueShape → String
  | scalar   => "scalar"
  | matrix s => s.describe

end InfixAlgebra
