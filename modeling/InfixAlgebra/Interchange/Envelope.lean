import InfixAlgebra.Error
import InfixAlgebra.Json.Writer

namespace InfixAlgebra

structure Envelope where
  success : Bool
  message : String
  data : Json

namespace Envelope

variable {α : Type} [NumberText α]

def ofResult (label : String) : Except (Error α) Json → Envelope
  | .ok data => ⟨true, label, data⟩
  | .error e => ⟨false, e.report, .null⟩

def toJson (e : Envelope) : Json :=
  .ofFields
    [ ("success", .bool e.success),
      ("message", .ofText e.message),
      ("data", e.data) ]

def render (e : Envelope) : String :=
  e.toJson.pretty

end Envelope

end InfixAlgebra
