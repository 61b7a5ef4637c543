import InfixAlgebra.CommandLine.Invocation
import InfixAlgebra.Interchange.Envelope
import InfixAlgebra.Source

namespace InfixAlgebra

structure Outcome where
  status : Nat
  output : String
  complaint : String
  deriving DecidableEq, Repr

structure Answer where
  text : String
  data : Json

namespace Answer

variable {α : Type} [Scalar α] [NumberText α]

def ofValue (v : Value α) : Answer := ⟨v.render, v.toJson⟩

def ofNumber (x : α) : Answer := ⟨NumberText.plain x, .ofPlainNumber x⟩

def ofText (s : String) : Answer := ⟨s, .ofText s⟩

def ofSolution (s : Solution α) : Answer := ⟨s.render, s.toJson⟩

end Answer

namespace Command

variable {α : Type} [Scalar α] [NumberText α]

def label : Command α → String
  | evaluate .. | calculate .. | matrix .. => "Result"
  | parse ..                               => "Parsed"
  | differentiate _ name                   => "d/d" ++ name
  | simplify ..                            => "Simplified"
  | rationalize ..                         => "Rationalized"
  | solve .. | system ..                   => "Solution"

def scope (bindings : List (String × α)) : Scope α :=
  NameMap.ofList (bindings.map fun (name, x) => (name, .scalar x))

def run (config : Config α) : Command α → Except (Error α) Answer
  | evaluate text bindings => .ofValue <$> (Source.text text).evaluate config (scope bindings)
  | calculate op a b       => .ofNumber <$> op.calculate a b
  | parse text             => do
    let t ← Expr.parse config.maxDepth text
    return .ofText t.render
  | differentiate text name => do
    let t ← (Source.text text).differentiate config name
    return .ofText t.render
  | simplify text bindings => do
    let s ← (Source.text text).simplify config (scope bindings)
    return .ofText s.render
  | rationalize text       => do
    let t ← (Source.text text).rationalize config
    return .ofText t.render
  | matrix .add a b        => .ofValue <$> a.add b
  | matrix .mul a b        => .ofValue <$> a.mul b
  | solve a b names        => do
    let xs ← a.solve config b
    .ofSolution <$> Solution.ofValues xs names
  | system s names         => .ofSolution <$> s.solve config names

end Command

namespace Outcome

variable {α : Type} [NumberText α]

def failure (e : Error α) : Outcome where
  status    := 1
  output    := ""
  complaint := e.report ++ "\n"

def ofText (label : String) : Except (Error α) Answer → Outcome
  | .ok a    => ⟨0, label ++ ": " ++ a.text ++ "\n", ""⟩
  | .error e => failure e

def ofEnvelope (e : Envelope) : Outcome where
  status    := if e.success then 0 else 1
  output    := e.render ++ "\n"
  complaint := ""

def misuse : Outcome := ⟨2, "", "The arguments cannot be understood.\n"⟩

end Outcome

namespace Invocation

variable {α : Type} [Scalar α] [NumberText α]

-- The configuration of an invocation. `read` gives the texts of files.
def config (inv : Invocation α) (read : String → Option String) :
    Except (Error α) (Config α) := do
  let fromFile ←
    match inv.configFile with
    | none      => pure Config.standard
    | some path =>
      match read path with
      | some text => Config.parse text
      | none      => throw (.config .unreadable)
  let config := { fromFile with maxDepth := inv.maxDepth.getD fromFile.maxDepth }
  config.validate
  return config

-- Without a configuration nothing is run, and the failure is reported as text in any case.
def run (inv : Invocation α) (read : String → Option String) : Outcome :=
  match inv.config read with
  | .error e   => .failure e
  | .ok config =>
    let label  := inv.command.label
    let result := inv.command.run config
    if inv.asJson then
      .ofEnvelope (.ofResult label (Answer.data <$> result))
    else
      .ofText label result

end Invocation

end InfixAlgebra
