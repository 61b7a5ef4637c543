import InfixAlgebra.Config
import InfixAlgebra.LinearSystem.Factorization
import InfixAlgebra.NameMap

namespace InfixAlgebra

inductive Solution (α : Type)
  | values (xs : List α)
  | named (xs : NameMap α)
  deriving DecidableEq, Repr

-- Equations that are given as text are not solved.
inductive EquationSystem (α : Type)
  | textual (equations : List String)
  | linear (coefficients : List (List α)) (constants : List α)
  deriving DecidableEq, Repr

namespace Solution

variable {α : Type}

-- Names the numbers of a solution. No names leave it as it is.
def ofValues (xs : List α) (names : List String) : Except (Error α) (Solution α) :=
  if names.isEmpty then
    pure (values xs)
  else if names.length = xs.length then
    pure (named (NameMap.ofList (names.zip xs)))
  else
    throw (.shape (.nameCount xs.length names.length))

def toList : Solution α → List α
  | values xs => xs
  | named xs  => xs.values

def render [NumberText α] : Solution α → String
  | values xs => "[" ++ ", ".intercalate (xs.map NumberText.display) ++ "]"
  | named xs  =>
    ", ".intercalate (xs.entries.map fun (name, x) => name ++ " = " ++ NumberText.display x)

variable [Scalar α]

-- The integer next to a number that is nearer than `tolerance` to it. Zero loses its sign.
def snap (tolerance x : α) : α :=
  let n := Scalar.round x
  if Scalar.lt (Scalar.abs (x - n)) tolerance then
    if n == 0 then 0 else n
  else
    x

end Solution

namespace Matrix

variable {α : Type} [Scalar α]

-- Solves `a x = b`. Entries of `x` that are nearly integers become integers.
def solve (config : Config α) (a : Matrix α) (b : List α) : Except (Error α) (List α) := do
  if !a.isSquare then
    throw (.shape (.notSquare a.shape))
  if b.length ≠ a.rows then
    throw (.shape (.constantCount a.rows b.length))
  let f ← Factorization.ofMatrix config.pivotEpsilon a
  let xs ← f.solve b
  return xs.map (Solution.snap config.snapTolerance)

end Matrix

namespace EquationSystem

variable {α : Type} [Scalar α]

def solve (config : Config α) (names : List String) : EquationSystem α →
    Except (Error α) (Solution α)
  | textual _                     => throw .textualEquations
  | linear coefficients constants => do
    let a ← Matrix.ofRows coefficients
    let xs ← a.solve config constants
    Solution.ofValues xs names

end EquationSystem

end InfixAlgebra
