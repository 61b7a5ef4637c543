import InfixAlgebra.Matrix.Basic

namespace InfixAlgebra

-- A square matrix `A` taken apart by elimination. Row `i` of the product of the two triangular
-- factors is row `order[i]` of `A`. The lower factor has ones on its diagonal, which are left out,
-- and shares the matrix `packed` with the upper one.
structure Factorization (α : Type) where
  packed : Matrix α
  order : Array Nat
  deriving DecidableEq, Repr

namespace Factorization

variable {α : Type} [Scalar α]

-- The row at or below `k` with the entry of the largest magnitude in column `k`, and the first
-- one among equals.
def pivotRow (m : Matrix α) (k : Nat) : Nat :=
  (List.range' (k + 1) (m.rows - (k + 1))).foldl larger k
where
  larger (p i : Nat) : Nat :=
    if Scalar.lt (Scalar.abs (m.entry p k)) (Scalar.abs (m.entry i k)) then i else p

def swapRows (m : Matrix α) (a b : Nat) : Matrix α :=
  Matrix.ofFn m.rows m.cols fun i j => m.entry (if i = a then b else if i = b then a else i) j

-- The entries `a` when multiples of row `k` have been subtracted from the rows below, so that
-- column `k` vanishes there. The factors take the place of the zeros.
def cleared {ι β : Type} [LE ι] [LT ι] [DecidableLE ι] [DecidableLT ι] [DecidableEq ι]
    [Sub β] [Mul β] [Div β] (a : ι → ι → β) (k i j : ι) : β :=
  if i ≤ k ∨ j < k then
    a i j
  else
    let factor := a i k / a k k
    if j = k then factor else a i j - factor * a k j

def eliminate (m : Matrix α) (k : Nat) : Matrix α :=
  Matrix.ofFn m.rows m.cols (cleared m.entry k)

-- A pivot that is not a number is not large enough either.
def step (pivotEpsilon : α) (f : Factorization α) (k : Nat) :
    Except (Error α) (Factorization α) :=
  let p     := pivotRow f.packed k
  let pivot := f.packed.entry p k
  if Scalar.le pivotEpsilon (Scalar.abs pivot) then
    pure ⟨eliminate (swapRows f.packed k p) k, f.order.swapIfInBounds k p⟩
  else
    throw (.singular pivot k)

def ofMatrix (pivotEpsilon : α) (a : Matrix α) : Except (Error α) (Factorization α) :=
  if a.isSquare then
    (List.range a.rows).foldlM (step pivotEpsilon) ⟨a, Array.range a.rows⟩
  else
    throw (.shape (.notSquare a.shape))

def dimension (f : Factorization α) : Nat :=
  f.packed.rows

def forward (f : Factorization α) (b : Array α) : Array α :=
  (List.range f.dimension).foldl next #[]
where
  next (ys : Array α) (i : Nat) : Array α :=
    let known := Scalar.sum ((List.range i).map fun j => f.packed.entry i j * ys.getD j 0)
    ys.push (b.getD (f.order.getD i 0) 0 - known)

def backward (f : Factorization α) (ys : Array α) : List α :=
  (List.range f.dimension).foldr next []
where
  next (i : Nat) (xs : List α) : List α :=
    let known := Scalar.sum ((xs.zipIdx (i + 1)).map fun (x, j) => f.packed.entry i j * x)
    (ys.getD i 0 - known) / f.packed.entry i i :: xs

def solve (f : Factorization α) (b : List α) : Except (Error α) (List α) :=
  if b.length = f.dimension then
    pure (f.backward (f.forward b.toArray))
  else
    throw (.shape (.constantCount f.dimension b.length))

end Factorization

end InfixAlgebra
