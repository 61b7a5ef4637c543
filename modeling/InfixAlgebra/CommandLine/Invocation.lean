import InfixAlgebra.CommandLine.Arguments
import InfixAlgebra.Interchange.Config
import InfixAlgebra.Text.Blank

namespace InfixAlgebra

inductive MatrixOperation
  | add
  | mul
  deriving DecidableEq, Repr

inductive Command (α : Type)
  | evaluate (text : String) (bindings : List (String × α))
  | calculate (op : Operation) (a b : α)
  | parse (text : String)
  | differentiate (text : String) (name : String)
  | simplify (text : String) (bindings : List (String × α))
  | rationalize (text : String)
  | matrix (op : MatrixOperation) (a b : Value α)
  | solve (a : Matrix α) (b : List α) (names : List String)
  | system (s : EquationSystem α) (names : List String)

structure Invocation (α : Type) where
  command : Command α
  asJson : Bool
  configFile : Option String
  maxDepth : Option Nat

namespace Operand

-- What single arguments stand for.

variable {α : Type} [Scalar α] [NumberText α]

def binding? (s : String) : Option (String × α) :=
  match s.splitOn "=" with
  | [name, value] => (NumberText.ofText? (Text.trim value)).map (Text.trim name, ·)
  | _             => none

def nat? (s : String) : Option Nat :=
  match s.toList with
  | '+' :: cs => digits? cs
  | cs        => digits? cs
where
  digits? (cs : List Char) : Option Nat :=
    let n := Decimal.natOfDigits cs
    if !cs.isEmpty && cs.all Char.isDigit && n < UInt64.size then some n else none

def value? (s : String) : Option (Value α) :=
  match NumberText.ofText? (Text.trim s) with
  | some x => some (.scalar x)
  | none   => do
    let data ← MatrixData.ofJson? (← Json.parse? s)
    (Matrix.ofData data).toOption.map .matrix

def grid? (s : String) : Option (Matrix α) := do
  let rows ← (← Json.parse? s).list? (·.list? Json.number?)
  (Matrix.ofRows rows).toOption

def numbers? (s : String) : Option (List α) := do
  (← Json.parse? s).list? Json.number?

def system? (s : String) : Option (EquationSystem α) := do
  EquationSystem.ofJson? (← Json.parse? s)

def names (values : List String) : List String :=
  values.flatMap (·.splitOn ",")

def matrixOperation? : String → Option MatrixOperation
  | "add" => some .add
  | "mul" => some .mul
  | _     => none

end Operand

namespace Command

variable {α : Type} [Scalar α] [NumberText α]

def signature (options : List OptionName) (operands : Nat) : Signature where
  options       := OptionName.common ++ options
  operands      := operands
  mayBeNegative := fun _ => false

-- Only the two numbers of the calculator may look like options.
def calculatorSignature : Signature :=
  { signature [] 3 with mayBeNegative := fun i => i == 1 || i == 2 }

-- What the name of a command stands for: what the command may be given, and what it makes of that.
structure Usage (α : Type) where
  signature : Signature
  command? : Arguments → Option (Command α)

open Operand

def usage? : String → Option (Usage α)
  | "eval" | "calculate-expression" => some {
      signature := signature [.binding] 1
      command?  := fun a => do
        let [text] := a.operands | none
        return evaluate text (← (a.values .binding).mapM binding?) }
  | "calc" => some {
      signature := calculatorSignature
      command?  := fun a => do
        let [op, x, y] := a.operands | none
        let op ← Operation.ofName? op
        return calculate op (← NumberText.ofText? x) (← NumberText.ofText? y) }
  | "parse" => some {
      signature := signature [] 1
      command?  := fun a => do
        let [text] := a.operands | none
        return parse text }
  | "diff" => some {
      signature := signature [.wrt] 1
      command?  := fun a => do
        let [text] := a.operands | none
        return differentiate text ((a.value? .wrt).getD "x") }
  | "simplify" => some {
      signature := signature [.binding] 1
      command?  := fun a => do
        let [text] := a.operands | none
        return simplify text (← (a.values .binding).mapM binding?) }
  | "rationalize" => some {
      signature := signature [] 1
      command?  := fun a => do
        let [text] := a.operands | none
        return rationalize text }
  | "matrix" => some {
      signature := signature [] 3
      command?  := fun a => do
        let [op, x, y] := a.operands | none
        return matrix (← matrixOperation? op) (← value? x) (← value? y) }
  | "solve" => some {
      signature := signature [.coefficients, .constants, .names] 0
      command?  := fun a => do
        let coefficients ← grid? (← a.value? .coefficients)
        let constants ← numbers? (← a.value? .constants)
        return solve coefficients constants (names (a.values .names)) }
  | "system" => some {
      signature := signature [.names] 1
      command?  := fun a => do
        let [s] := a.operands | none
        return system (← system? s) (names (a.values .names)) }
  | _ => none

def parse? (name : String) (args : List String) : Option (Command α × Arguments) := do
  let usage ← usage? name
  let a ← Arguments.parse? usage.signature args
  return (← usage.command? a, a)

end Command

namespace Invocation

variable {α : Type} [Scalar α] [NumberText α]

-- The invocation that the arguments of the program ask for, if they can be understood. The shared
-- options may stand before the name of the command or behind it, where they count more.
def parse? (args : List String) : Option (Invocation α) := do
  let (outer, name, rest) ← Arguments.splitAtName? (Command.signature [] 0) args
  let (command, inner) ← Command.parse? name rest
  let outerDepth ← (outer.values .maxDepth).mapM Operand.nat?
  let innerDepth ← (inner.values .maxDepth).mapM Operand.nat?
  return {
    command    := command
    asJson     := outer.has .json || inner.has .json
    configFile := inner.value? .config <|> outer.value? .config
    maxDepth   := innerDepth.getLast? <|> outerDepth.getLast? }

end Invocation

end InfixAlgebra
