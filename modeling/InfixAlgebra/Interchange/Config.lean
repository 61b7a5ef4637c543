import InfixAlgebra.Config
import InfixAlgebra.Interchange.Data
import InfixAlgebra.Json.Reader

namespace InfixAlgebra

namespace Config

variable {α : Type} [Scalar α] [NumberText α]

def toJson (c : Config α) : Json :=
  .ofFields
    [ ("max_depth", .ofNat c.maxDepth),
      ("max_operations", .ofNat c.maxOperations),
      ("pivot_epsilon", .ofPlainNumber c.pivotEpsilon),
      ("snap_tolerance", .ofPlainNumber c.snapTolerance),
      ("max_expand_power", .ofNat c.maxExpandPower) ]

-- What is to replace a standard setting: nothing, or the value of its only field.
def setting {β : Type} (standard : β) (read? : Json → Option β) : List Json → Option β
  | []  => some standard
  | [v] => read? v
  | _   => none

def ofSettings? (given : (index : Nat) → (name : String) → List Json) : Option (Config α) := do
  let c : Config α := Config.standard
  let maxDepth ← setting c.maxDepth (·.nat? UInt64.size) (given 0 "max_depth")
  let maxOperations ← setting c.maxOperations (·.nat? UInt64.size) (given 1 "max_operations")
  let pivotEpsilon ← setting c.pivotEpsilon Json.number? (given 2 "pivot_epsilon")
  let snapTolerance ← setting c.snapTolerance Json.number? (given 3 "snap_tolerance")
  let maxExpandPower ← setting c.maxExpandPower (·.nat? UInt32.size) (given 4 "max_expand_power")
  return { maxDepth, maxOperations, pivotEpsilon, snapTolerance, maxExpandPower }

-- An object with settings as fields, among which others may stand, or a list of at most five
-- settings in their order.
def ofJson? (v : Json) : Option (Config α) :=
  match v with
  | .array items =>
    if items.length ≤ 5 then ofSettings? fun i _ => items[i]?.toList else none
  | v => do
    let fields ← v.fields?
    ofSettings? fun _ name => Json.allAt name fields

def ofJson (v : Option Json) : Except (Error α) (Config α) := do
  match v.bind ofJson? with
  | none   => throw (.config .unreadable)
  | some c =>
    c.validate
    return c

def parse (text : String) : Except (Error α) (Config α) :=
  ofJson (Json.parse? text)

end Config

end InfixAlgebra
