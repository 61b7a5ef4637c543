import InfixAlgebra.Calculator
import InfixAlgebra.Json.Basic
import InfixAlgebra.LinearSystem.Solution
import InfixAlgebra.Value

namespace InfixAlgebra

-- How values are exchanged as data. There are no numerals for numbers that are not finite: in
-- values their place is taken by their text, in solutions and for plain numbers by `null`.

namespace Json

variable {α : Type} [Scalar α] [NumberText α]

def number? : Json → Option α
  | number s => do
    let (negative, n) ← numeral? s
    NumberText.ofJson? negative n
  | _        => none

def ofNumber (x : α) : Json :=
  if Scalar.isFinite x then
    number (NumberText.json x).toList
  else
    ofText (NumberText.display x)

def ofPlainNumber (x : α) : Json :=
  if Scalar.isFinite x then number (NumberText.json x).toList else null

end Json

namespace Matrix

variable {α : Type} [Scalar α] [NumberText α]

def toJson (m : Matrix α) : Json :=
  if m.isVector then
    .array (m.data.toList.map .ofNumber)
  else
    .array (m.toRows.map fun row => .array (row.map .ofNumber))

end Matrix

namespace Value

variable {α : Type} [Scalar α] [NumberText α]

def toJson : Value α → Json
  | scalar x => .ofNumber x
  | matrix m => m.toJson

end Value

namespace Solution

variable {α : Type} [Scalar α] [NumberText α]

def toJson : Solution α → Json
  | values xs => .array (xs.map .ofPlainNumber)
  | named xs  => .ofFields (xs.entries.map fun (name, x) => (name, .ofPlainNumber x))

end Solution

namespace Operation

def toJson (op : Operation) : Json :=
  .ofText op.name

-- An operation is named by a string, or by the only field of an object that has nothing for its
-- value.
def ofJson? : Json → Option Operation
  | .object [(key, .null)] => do ofName? (String.ofList (← Json.unescape? key))
  | v                      => do ofName? (← v.string?)

end Operation

namespace MatrixData

variable {α : Type} [Scalar α] [NumberText α]

-- A list of numbers is a vector, also the empty one, and a list of such lists is a grid.
def ofJson? (v : Json) : Option (MatrixData α) :=
  (vector <$> v.list? Json.number?) <|> (grid <$> v.list? (·.list? Json.number?))

end MatrixData

namespace Json

variable {α : Type} [Scalar α] [NumberText α]

mutual

-- Whether all strings and numbers stand for something, and brackets are nested less than `n`
-- deep.
def isSound (α : Type) [Scalar α] [NumberText α] (n : Nat) : Json → Bool
  | null | bool _ => true
  | number s      => ((number s).number? (α := α)).isSome
  | string s      => (unescape? s).isSome
  | array items   => 0 < n && allSound α (n - 1) items
  | object fields => 0 < n && allFieldsSound α (n - 1) fields
termination_by structural v => v

def allSound (α : Type) [Scalar α] [NumberText α] (n : Nat) : List Json → Bool
  | []      => true
  | v :: vs => isSound α n v && allSound α n vs
termination_by structural vs => vs

def allFieldsSound (α : Type) [Scalar α] [NumberText α] (n : Nat) :
    List (List Char × Json) → Bool
  | []           => true
  | (k, v) :: fs => (unescape? k).isSome && isSound α n v && allFieldsSound α n fs
termination_by structural fs => fs

end

end Json

namespace EquationSystem

variable {α : Type} [Scalar α] [NumberText α]

-- A list of strings is a system of equations that are texts. A linear system is an object with
-- the two fields that it needs, each once.
def ofJson? (v : Json) : Option (EquationSystem α) :=
  if v.isSound α 127 then
    (textual <$> v.list? Json.string?) <|> do
      let fields ← v.fields?
      match Json.allAt "coefficients" fields, Json.allAt "constants" fields with
      | [a], [b] => return linear (← a.list? (·.list? Json.number?)) (← b.list? Json.number?)
      | _, _     => none
  else
    none

end EquationSystem

end InfixAlgebra
