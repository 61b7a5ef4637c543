import InfixAlgebra.Budget

namespace InfixAlgebra

structure Config (α : Type) extends Limits where
  -- A matrix is singular for which no pivot of at least this magnitude is found.
  pivotEpsilon : α
  -- Entries of a solution that are nearer than this to an integer are taken to be it.
  snapTolerance : α
  -- The largest power of a sum that is multiplied out.
  maxExpandPower : Nat
  deriving DecidableEq, Repr

namespace Config

variable {α : Type}

def standard [NumberText α] : Config α where
  maxDepth       := 200
  maxOperations  := 1000000
  pivotEpsilon   := NumberText.ofDecimal ⟨1, -12⟩
  snapTolerance  := NumberText.ofDecimal ⟨1, -10⟩
  maxExpandPower := 8

instance [NumberText α] : Inhabited (Config α) := ⟨standard⟩

def validate [Scalar α] (c : Config α) : Except (Error α) Unit :=
  if c.maxDepth = 0 then
    throw (.config .zeroDepth)
  else if c.maxOperations = 0 then
    throw (.config .zeroOperations)
  else if Scalar.le 0 c.pivotEpsilon && Scalar.le 0 c.snapTolerance then
    pure ()
  else
    throw (.config .negativeTolerance)

end Config

end InfixAlgebra
