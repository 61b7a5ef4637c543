import InfixAlgebra.Error

namespace InfixAlgebra

inductive Operation
  | add
  | subtract
  | multiply
  | divide
  deriving DecidableEq, Repr

namespace Operation

def name : Operation → String
  | add      => "add"
  | subtract => "subtract"
  | multiply => "multiply"
  | divide   => "divide"

def all : List Operation := [add, subtract, multiply, divide]

def ofName? (s : String) : Option Operation :=
  all.find? (·.name == s)

variable {α : Type}

def ofName (s : String) : Except (Error α) Operation :=
  match ofName? s with
  | some op => pure op
  | none    => throw (.unsupported (.operation s))

def calculate [Scalar α] (op : Operation) (a b : α) : Except (Error α) α :=
  match op with
  | add      => pure (a + b)
  | subtract => pure (a - b)
  | multiply => pure (a * b)
  | divide   => if b == 0 then throw .divisionByZero else pure (a / b)

end Operation

end InfixAlgebra
