import InfixAlgebra.Error

namespace InfixAlgebra

structure Limits where
  maxDepth : Nat
  maxOperations : Nat
  deriving DecidableEq, Repr

-- A computation that pays for its steps out of the allowance of `Limits`. The state is what has
-- been spent so far.
abbrev Metered (α : Type) := ReaderT Limits (StateT Nat (Except (Error α)))

namespace Metered

variable {α β : Type}

def run (x : Metered α β) (limits : Limits) : Except (Error α) β :=
  (·.1) <$> (ReaderT.run x limits).run 0

def charge (count : Nat) : Metered α Unit := do
  let limits ← read
  let used := (← get) + count
  if used > limits.maxOperations then
    throw (.outOfOperations limits.maxOperations)
  set used

-- A chain of this length would nest as deeply, which the limit on the depth has to admit.
def checkChain (length : Nat) : Metered α Unit := do
  let limits ← read
  if length > limits.maxDepth then
    throw (.tooDeep limits.maxDepth)

-- Pays for one node at the given depth. A node that is too deep is not paid for.
def step (depth : Nat) : Metered α Unit := do
  checkChain depth
  charge 1

def exhausted : Metered α β := do
  throw (.outOfOperations (← read).maxOperations)

end Metered

end InfixAlgebra
