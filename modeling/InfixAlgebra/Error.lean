import InfixAlgebra.Shape
import InfixAlgebra.Token

namespace InfixAlgebra

inductive Expected
  | operand
  | knownName
  | operatorOrEnd
  | closing
  | openingAfter (f : Elementary)
  | singleArgument (f : Elementary)
  deriving DecidableEq, Repr

inductive ShapeFault
  | raggedRow (row expected found : Nat)
  | unequal (left right : Shape)
  | innerExtent (left right : Shape)
  | rowLength (expected : Nat) (found : Shape)
  | notSquare (found : Shape)
  | constantCount (expected found : Nat)
  | nameCount (expected found : Nat)
  deriving DecidableEq, Repr

inductive Unsupported
  | arguments (f : Elementary) (count : Nat)
  | derivative (f : Elementary) (count : Nat)
  | operands (op : Operator) (left right : ValueShape)
  | operation (name : String)
  deriving DecidableEq, Repr

-- A file that cannot be read and a text that is not a configuration are both `unreadable`. What the
-- system or the reader of data has to say about it is not kept: one text stands for all of it.
inductive ConfigFault
  | zeroDepth
  | zeroOperations
  | negativeTolerance
  | unreadable
  deriving DecidableEq, Repr

-- Everything that can keep an operation from giving a result. Division by zero and arguments
-- outside a function's domain are no errors inside expressions: they give a number that is not
-- finite. Only the calculator on two numbers refuses a zero divisor.
inductive Error (α : Type)
  | stray (position : Nat) (character : Char)
  | unexpected (position : Nat) (found : Option (Token α)) (expected : Expected)
  | unbound (name : String)
  | shape (fault : ShapeFault)
  | singular (pivot : α) (column : Nat)
  | tooDeep (limit : Nat)
  | outOfOperations (limit : Nat)
  | divisionByZero
  | unsupported (what : Unsupported)
  | textualEquations
  | config (fault : ConfigFault)
  deriving DecidableEq, Repr

def Expected.describe : Expected → String
  | operand          => "a number, constant, variable, function call or '('"
  | knownName        => "a variable (a-z), constant (pi, e) or function (sin, cos, tan, sqrt, log)"
  | operatorOrEnd    => "an operator or end of input"
  | closing          => "')'"
  | openingAfter f   => "'(' after '" ++ f.name ++ "'"
  | singleArgument f => "')' ('" ++ f.name ++ "' takes exactly one argument)"

def ShapeFault.expected : ShapeFault → String
  | raggedRow row expected _ => s!"row {row} to have {expected} elements"
  | unequal left _           => left.describe
  | innerExtent left _       => s!"{left.cols} rows on the right operand"
  | rowLength expected _     => s!"a vector of length {expected}"
  | notSquare _              => "a square coefficient matrix"
  | constantCount expected _ => s!"a constants vector of length {expected}"
  | nameCount expected _     => s!"{expected} variable names"

def ShapeFault.found : ShapeFault → String
  | raggedRow _ _ found    => s!"{found} elements"
  | unequal _ right        => right.describe
  | innerExtent left right => left.describe ++ " times " ++ right.describe
  | rowLength _ found      => found.describe
  | notSquare found        => found.describe
  | constantCount _ found  => s!"length {found}"
  | nameCount _ found      => s!"{found} names"

def Unsupported.describe : Unsupported → String
  | arguments f count     => s!"{f.name} expects 1 argument, got {count}"
  | derivative f count    => s!"derivative of {f.name} with {count} arguments"
  | operands op left right =>
    "'" ++ op.symbol.toString ++ "' between " ++ left.describe ++ " and " ++ right.describe
  | operation name        =>
    "unknown operation '" ++ name ++ "' (expected add, subtract, multiply or divide)"

def ConfigFault.describe : ConfigFault → String
  | zeroDepth         => "max_depth must be at least 1"
  | zeroOperations    => "max_operations must be at least 1"
  | negativeTolerance => "tolerances must be non-negative numbers"
  | unreadable        => "not a readable configuration"

namespace Error

variable {α : Type}

def kind : Error α → String
  | stray .. | unexpected ..       => "SyntaxError"
  | unbound _                      => "UnboundVariableError"
  | shape _                        => "ShapeError"
  | singular ..                    => "SingularMatrixError"
  | tooDeep _ | outOfOperations _  => "DepthExceededError"
  | divisionByZero                 => "DivisionByZeroError"
  | unsupported _                  => "UnsupportedOperationError"
  | textualEquations               => "NotImplementedError"
  | config _                       => "ConfigError"

def message [NumberText α] : Error α → String
  | stray position character =>
    s!"Lexer error at position {position}: unexpected character '{character}'"
  | unexpected position found expected =>
    s!"Syntax error at position {position}: expected {expected.describe}, found " ++
      found.elim "end of input" Token.describe
  | unbound name             => "Unbound variable: " ++ name
  | shape fault              => s!"Shape mismatch: expected {fault.expected}, got {fault.found}"
  | singular pivot column    =>
    "Singular matrix: pivot " ++ NumberText.scientific pivot ++
      s!" in column {column} is numerically zero"
  | tooDeep limit            => s!"Expression exceeds the maximum depth of {limit}"
  | outOfOperations limit    => s!"Expression exceeds the operation budget of {limit}"
  | divisionByZero           => "Cannot divide by zero"
  | unsupported what         => "Unsupported operation: " ++ what.describe
  | textualEquations         =>
    "Not implemented: solving systems given as equation strings"
  | config fault             => "Invalid configuration: " ++ fault.describe

def report [NumberText α] (e : Error α) : String :=
  e.kind ++ ": " ++ e.message

end Error

end InfixAlgebra
