import InfixAlgebra.Scalar

namespace InfixAlgebra

-- The words of the expression language. A minus is always an operator; whether it negates or
-- subtracts is for the grammar to say.
inductive Token (α : Type)
  | number (x : α)
  | constant (c : Constant)
  | elementary (f : Elementary)
  | name (s : String)
  | operator (op : Operator)
  | opening
  | closing
  | comma
  deriving DecidableEq, Repr

structure Spanned (α : Type) where
  token : Token α
  start : Nat
  stop : Nat
  deriving DecidableEq, Repr

inductive Lexeme (α : Type)
  | token (t : Spanned α)
  | stray (position : Nat) (character : Char)
  deriving DecidableEq, Repr

namespace Token

variable {α : Type}

def describe [NumberText α] : Token α → String
  | number x     => "number " ++ NumberText.plain x
  | constant c   => "'" ++ c.name ++ "'"
  | elementary f => "'" ++ f.name ++ "'"
  | name s       => "identifier '" ++ s ++ "'"
  | operator op  => "'" ++ op.symbol.toString ++ "'"
  | opening      => "'('"
  | closing      => "')'"
  | comma        => "','"

def isNameStart (c : Char) : Bool :=
  c.isAlpha || c == '_'

def isNamePart (c : Char) : Bool :=
  c.isAlphanum || c == '_'

-- A word that names a constant or a function is never free for anything else.
def ofWord (w : List Char) : Token α :=
  match Constant.all.find? (·.name.toList == w), Elementary.all.find? (·.name.toList == w) with
  | some c, _    => constant c
  | none, some f => elementary f
  | none, none   => name (String.ofList w)

def ofMark? : Char → Option (Token α)
  | '+' => some (operator .add)
  | '-' => some (operator .sub)
  | '*' => some (operator .mul)
  | '/' => some (operator .div)
  | '^' => some (operator .pow)
  | '(' => some opening
  | ')' => some closing
  | ',' => some comma
  | _   => none

-- The longest token at the start of a text, and the number of characters that it takes.
def scan [NumberText α] : List Char → Option (Token α × Nat)
  | [] => none
  | c :: cs =>
    if isNameStart c then
      let w := c :: cs.takeWhile isNamePart
      some (ofWord w, w.length)
    else
      match ofMark? c with
      | some t => some (t, 1)
      | none   => do
        let n ← Numeral.scan (c :: cs)
        return (number (NumberText.ofDecimal n.decimal), n.length)

end Token

namespace Lexeme

variable {α : Type} [NumberText α]

def isBlank (c : Char) : Bool :=
  c == ' ' || c == '\t' || c == '\n' || c == '\r'

-- A character belongs to the token that began before it, or is blank, or begins what comes next.
-- All characters of a token take one byte, so its length counts bytes as well.
def scanFrom (position : Nat) : (pending : Nat) → List Char → List (Lexeme α)
  | _, [] => []
  | n + 1, c :: cs => scanFrom (position + c.utf8Size) n cs
  | 0, c :: cs =>
    let next := position + c.utf8Size
    if isBlank c then
      scanFrom next 0 cs
    else
      match Token.scan (c :: cs) with
      | some (t, n) => token ⟨t, position, position + n⟩ :: scanFrom next (n - 1) cs
      | none        => stray position c :: scanFrom next 0 cs

def scan (text : String) : List (Lexeme α) :=
  scanFrom 0 0 text.toList

end Lexeme

end InfixAlgebra
