import InfixAlgebra.Matrix.Arithmetic
import InfixAlgebra.NameMap

namespace InfixAlgebra

inductive Value (α : Type)
  | scalar (x : α)
  | matrix (m : Matrix α)
  deriving DecidableEq, Repr

abbrev Scope (α : Type) := NameMap (Value α)

namespace Value

variable {α : Type}

def shape : Value α → ValueShape
  | scalar _ => .scalar
  | matrix m => .matrix m.shape

def map (f : α → α) : Value α → Value α
  | scalar x => scalar (f x)
  | matrix m => matrix (m.map f)

def render [Zero α] [NumberText α] : Value α → String
  | scalar x => NumberText.display x
  | matrix m => m.render

variable [Scalar α]

-- The sum, where a scalar is added to every entry of a matrix.
def add : Value α → Value α → Except (Error α) (Value α)
  | scalar x, scalar y => pure (scalar (x + y))
  | scalar x, matrix m => pure (matrix (m.map (· + x)))
  | matrix m, scalar x => pure (matrix (m.map (· + x)))
  | matrix m, matrix n => matrix <$> m.add n

-- The product. Two vectors have a scalar product, and a vector to the left of a matrix is a
-- row.
def mul : Value α → Value α → Except (Error α) (Value α)
  | scalar x, scalar y => pure (scalar (x * y))
  | scalar x, matrix m => pure (matrix (m.scale x))
  | matrix m, scalar x => pure (matrix (m.scale x))
  | matrix m, matrix n =>
    match m.isVector, n.isVector with
    | true, true  => scalar <$> m.dot n
    | true, false => matrix <$> m.rowMul n
    | false, _    => matrix <$> m.mul n

def combine (op : Operator) (a b : Value α) : Except (Error α) (Value α) :=
  match op, a, b with
  | op, scalar x, scalar y   => pure (scalar (op.apply x y))
  | .add, a, b               => a.add b
  | .sub, a, b               => a.add (b.map (-·))
  | .mul, a, b               => a.mul b
  | .div, matrix m, scalar x => pure (matrix (m.map (· / x)))
  | op, a, b                 => throw (.unsupported (.operands op a.shape b.shape))

end Value

end InfixAlgebra
