import InfixAlgebra.Expr.Basic

namespace InfixAlgebra

-- Where the tokens of a text stop: at its end, or at a character that no token begins with.
inductive Ending
  | finished (position : Nat)
  | stray (position : Nat) (character : Char)
  deriving DecidableEq, Repr

structure Lexing (α : Type) where
  tokens : List (Spanned α)
  ending : Ending
  deriving DecidableEq, Repr

namespace Lexing

variable {α : Type}

def ofLexemes (stop : Nat) : List (Lexeme α) → Lexing α
  | []                        => ⟨[], .finished stop⟩
  | .stray position c :: _    => ⟨[], .stray position c⟩
  | .token t :: rest          =>
    let l := ofLexemes stop rest
    { l with tokens := t :: l.tokens }

def ofText [NumberText α] (text : String) : Lexing α :=
  ofLexemes text.utf8ByteSize (Lexeme.scan text)

def tokens? (l : Lexing α) : Except (Error α) (List (Spanned α)) :=
  match l.ending with
  | .finished _        => pure l.tokens
  | .stray position c  => throw (.stray position c)

end Lexing

-- Variables are single lower case letters.
def isVariableName (name : String) : Bool :=
  match name.toList with
  | [c] => c.isLower
  | _   => false

-- The grammar, from the weakest to the strongest operator:
--
--   additive       := multiplicative (('+' | '-') multiplicative)*
--   multiplicative := unary (('*' | '/') unary)*
--   unary          := '-' unary | power
--   power          := primary ('^' unary)?
--   primary        := number | constant | variable | function '(' additive ')' | '(' additive ')'

-- Parsers read from the tokens that are left. The ending tells them what an exhausted list of
-- tokens means.
abbrev Parser (α : Type) :=
  ReaderT Ending (StateT (List (Spanned α)) (Except (Error α)))

namespace Parser

variable {α : Type}

def peek? : Parser α (Option (Token α)) := do
  return (← get).head?.map (·.token)

def settle : Parser α Unit := do
  match ← get, ← read with
  | [], .stray position c => throw (.stray position c)
  | _, _                  => pure ()

def advance : Parser α Unit := do
  modify List.tail
  settle

def position : Parser α Nat := do
  match ← get, ← read with
  | t :: _, _                => return t.start
  | [], .finished position   => return position
  | [], .stray position _    => return position

def refuse {β : Type} (expected : Expected) : Parser α β := do
  throw (.unexpected (← position) (← peek?) expected)

def closing : Parser α Unit := do
  match ← peek? with
  | some .closing => advance
  | _             => refuse .closing

-- Every round takes at least the token of its operator, so there are no more rounds than tokens.
def chainFrom (op? : Token α → Option Operator) (operand : Parser α (Expr α)) :
    (rounds : List (Spanned α)) → Expr α → Parser α (Expr α)
  | [], left => pure left
  | _ :: rounds, left => do
    match (← peek?).bind op? with
    | none    => pure left
    | some op => do
      advance
      let right ← operand
      chainFrom op? operand rounds (.binary op left right)

def chain (op? : Token α → Option Operator) (operand : Parser α (Expr α)) : Parser α (Expr α) := do
  let left ← operand
  chainFrom op? operand (← get) left

def additive? : Token α → Option Operator
  | .operator .add => some .add
  | .operator .sub => some .sub
  | _              => none

def multiplicative? : Token α → Option Operator
  | .operator .mul => some .mul
  | .operator .div => some .div
  | _              => none

def additive (unary : Parser α (Expr α)) : Parser α (Expr α) :=
  chain additive? (chain multiplicative? unary)

def argument (f : Elementary) (unary : Parser α (Expr α)) : Parser α (Expr α) := do
  match ← peek? with
  | some .opening => advance
  | _             => refuse (.openingAfter f)
  let a ← additive unary
  match ← peek? with
  | some .comma => refuse (.singleArgument f)
  | _           => closing
  return .call f [a]

def primary (unary : Parser α (Expr α)) : Parser α (Expr α) := do
  match ← peek? with
  | some (.number x)     => advance; return .number x
  | some (.constant c)   => advance; return .constant c
  | some (.name s)       =>
    if isVariableName s then
      advance; return .var s
    else
      refuse .knownName
  | some (.elementary f) => advance; argument f unary
  | some .opening        => do
    advance
    let a ← additive unary
    closing
    return a
  | _                    => refuse .operand

-- Reads a negation or a power, inside of at most `n` more of its kind.
def unary (limit : Nat) : Nat → Parser α (Expr α)
  | 0 => throw (.tooDeep limit)
  | n + 1 => do
    match ← peek? with
    | some (.operator .sub) => do
      advance
      return .neg (← unary limit n)
    | _ => do
      let base ← primary (unary limit n)
      match ← peek? with
      | some (.operator .pow) => do
        advance
        return .pow base (← unary limit n)
      | _ => return base

-- Reads everything there is as one expression. A long chain of operators nests deeply without
-- deep recursion here, so the depth of the result is checked in the end.
def expression (limit : Nat) : Parser α (Expr α) := do
  settle
  let t ← additive (unary limit limit)
  match ← peek? with
  | some _ => refuse .operatorOrEnd
  | none   => pure ()
  t.checkDepth limit
  return t

end Parser

namespace Expr

variable {α : Type} [NumberText α]

def parse (limit : Nat) (text : String) : Except (Error α) (Expr α) :=
  let l := Lexing.ofText text
  (·.1) <$> (Parser.expression limit |>.run l.ending).run l.tokens

end Expr

end InfixAlgebra
