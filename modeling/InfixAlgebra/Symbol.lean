namespace InfixAlgebra

inductive Constant
  | pi
  | e
  deriving DecidableEq, Repr

-- `log` is the natural logarithm.
inductive Elementary
  | sin
  | cos
  | tan
  | sqrt
  | log
  deriving DecidableEq, Repr

inductive Operator
  | add
  | sub
  | mul
  | div
  | pow
  deriving DecidableEq, Repr

namespace Constant

def name : Constant → String
  | pi => "pi"
  | e  => "e"

def all : List Constant := [pi, e]

end Constant

namespace Elementary

def name : Elementary → String
  | sin  => "sin"
  | cos  => "cos"
  | tan  => "tan"
  | sqrt => "sqrt"
  | log  => "log"

def all : List Elementary := [sin, cos, tan, sqrt, log]

end Elementary

namespace Operator

def symbol : Operator → Char
  | add => '+'
  | sub => '-'
  | mul => '*'
  | div => '/'
  | pow => '^'

-- The binding strengths leave 3 for negation, which stands between products and powers, and 5 for
-- what needs no parentheses anywhere.
def precedence : Operator → Nat
  | add | sub => 1
  | mul | div => 2
  | pow       => 4

def isRightAssociative : Operator → Bool
  | pow => true
  | _   => false

end Operator

end InfixAlgebra
