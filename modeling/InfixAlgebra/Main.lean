import InfixAlgebra.CommandLine.Outcome
import InfixAlgebra.Scalar.Double

namespace InfixAlgebra

def readFile? (path : String) : IO (Option String) := do
  try
    return some (← IO.FS.readFile path)
  catch _ =>
    return none

def runProgram (args : List String) : IO Outcome := do
  match (Invocation.parse? args : Option (Invocation Float)) with
  | none     => return .misuse
  | some inv =>
    let text ← inv.configFile.elim (pure none) readFile?
    return inv.run fun _ => text

end InfixAlgebra

def main (args : List String) : IO UInt32 := do
  let outcome ← InfixAlgebra.runProgram args
  IO.print outcome.output
  IO.eprint outcome.complaint
  return outcome.status.toUInt32
