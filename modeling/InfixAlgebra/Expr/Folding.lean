import InfixAlgebra.Expr.Basic

namespace InfixAlgebra

namespace Expr

variable {α : Type} [Scalar α]

def fold? (op : Operator) (a b : Expr α) : Option (Expr α) :=
  match a, b with
  | number x, number y =>
    let z := op.apply x y
    if Scalar.isFinite z then some (number z) else none
  | _, _ => none

-- Operations on expressions which drop what is neutral and fold numbers, at the root only. Nothing
-- is reordered or collected, except that a numeric factor goes to the front.

namespace Folded

def neg : Expr α → Expr α
  | number x => number (-x)
  | .neg a   => a
  | a        => .neg a

def add (a b : Expr α) : Expr α :=
  if a.isNumber 0 then b
  else if b.isNumber 0 then a
  else (fold? .add a b).getD <|
    match b with
    | .neg c => .sub a c
    | b      => .add a b

def sub (a b : Expr α) : Expr α :=
  if b.isNumber 0 then a
  else if a.isNumber 0 then neg b
  else (fold? .sub a b).getD <|
    match b with
    | .neg c => .add a c
    | b      => .sub a b

def div (a b : Expr α) : Expr α :=
  if b.isNumber 1 then a
  else if a.isNumber 0 && !b.isNumber 0 then number 0
  else (fold? .div a b).getD (.div a b)

def reciprocal? : Expr α → Option (Expr α)
  | .div a b => if a.isNumber 1 then some b else none
  | _        => none

def scale (x : α) (b : Expr α) : Expr α :=
  if x == 0 || b.isNumber 0 then number 0
  else if x == 1 then b
  else if b.isNumber 1 then number x
  else (fold? .mul (number x) b).getD <|
    if x == -1 then neg b
    else if b.isNumber (-1) then number (-x)
    else
      match reciprocal? b with
      | some d => div (number x) d
      | none   =>
        match b with
        | .mul (number y) rest => scale (x * y) rest
        | b                    => .mul (number x) b
termination_by structural b

def mul (a b : Expr α) : Expr α :=
  match a with
  | number x => scale x b
  | a =>
    if b.isNumber 0 then number 0
    else if b.isNumber 1 then a
    else if b.isNumber (-1) then neg a
    else
      match reciprocal? a, reciprocal? b, b with
      | some d, _, b            => div b d
      | none, some d, _         => div a d
      | none, none, number y    => scale y a
      | none, none, b           => .mul a b

def pow (a b : Expr α) : Expr α :=
  if b.isNumber 0 then number 1
  else if b.isNumber 1 then a
  else (fold? .pow a b).getD (.pow a b)

def log : Expr α → Expr α
  | constant .e => number 1
  | a           => call .log [a]

end Folded

end Expr

end InfixAlgebra
