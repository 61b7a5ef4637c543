import InfixAlgebra.Matrix.Basic

namespace InfixAlgebra

namespace Matrix

variable {α : Type} [Scalar α]

def scale (m : Matrix α) (x : α) : Matrix α :=
  m.map (· * x)

-- A column of a matrix plus a vector is a matrix again.
def add (a b : Matrix α) : Except (Error α) (Matrix α) :=
  if a.rows = b.rows ∧ a.cols = b.cols then
    pure
      { rows     := a.rows
        cols     := a.cols
        data     := a.data.zipWith (· + ·) b.data
        isVector := a.isVector && b.isVector }
  else
    throw (.shape (.unequal a.shape b.shape))

def mul (a b : Matrix α) : Except (Error α) (Matrix α) :=
  if a.cols = b.rows then
    let product := ofFn a.rows b.cols fun i j =>
      Scalar.sum ((List.range a.cols).map fun k => a.entry i k * b.entry k j)
    pure { product with isVector := b.isVector }
  else
    throw (.shape (.innerExtent a.shape b.shape))

def dot (a b : Matrix α) : Except (Error α) α :=
  if a.data.size = b.data.size then
    pure (Scalar.sum (List.zipWith (· * ·) a.data.toList b.data.toList))
  else
    throw (.shape (.unequal a.shape b.shape))

def rowMul (v b : Matrix α) : Except (Error α) (Matrix α) :=
  if v.rows = b.rows then
    pure <| ofVector <| (List.range b.cols).map fun j =>
      Scalar.sum ((List.range b.rows).map fun k => v.data.getD k 0 * b.entry k j)
  else
    throw (.shape (.rowLength b.rows v.shape))

end Matrix

end InfixAlgebra
