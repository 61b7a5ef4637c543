import InfixAlgebra.Symbol
import InfixAlgebra.Decimal.Numeral

namespace InfixAlgebra

-- The numbers that the library computes with.
--
-- All operations are total: where a result does not exist, such as a quotient by zero, they give a
-- number that is not `isFinite`. Comparison is by `==`, `lt` and `le`, which such a number may fail
-- against itself.
class Scalar (α : Type) extends Zero α, One α, Neg α, Add α, Sub α, Mul α, Div α, BEq α where
  ofNat : Nat → α
  pow : α → α → α
  constant : Constant → α
  elementary : Elementary → α → α
  abs : α → α
  lt : α → α → Bool
  le : α → α → Bool
  isFinite : α → Bool
  -- The integer that a number is, for those that are one.
  toInt? : α → Option Int
  -- The nearest integer, where a half goes away from zero.
  round : α → α

class NumberText (α : Type) where
  -- The number nearest to a decimal.
  ofDecimal : Decimal → α
  -- The number that a numeral in a data file stands for, if it is not too large.
  ofJson? : (negative : Bool) → Numeral → Option α
  -- The number that a whole text is, for texts that are one.
  ofText? : String → Option α
  -- The form that expressions and values are printed in.
  display : α → String
  -- Digits and a point, however large or small the number.
  plain : α → String
  -- One digit before the point and a power of ten, whatever the number.
  scientific : α → String
  -- The numeral for data files.
  json : α → String

namespace Scalar

variable {α} [Scalar α]

-- Adds from left to right, starting from negative zero, which is neutral to the last bit.
def sum (xs : List α) : α :=
  xs.foldl (· + ·) (-0)

end Scalar

namespace Operator

variable {α} [Scalar α]

def apply : Operator → α → α → α
  | add, a, b => a + b
  | sub, a, b => a - b
  | mul, a, b => a * b
  | div, a, b => a / b
  | pow, a, b => Scalar.pow a b

end Operator

end InfixAlgebra
