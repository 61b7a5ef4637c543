import InfixAlgebra.Config
import InfixAlgebra.Expr.Folding

namespace InfixAlgebra

namespace Expr

variable {α : Type} [Scalar α]

open Folded

def slope (f : Elementary) (a : Expr α) : Expr α :=
  match f with
  | .sin  => call .cos [a]
  | .cos  => Folded.neg (call .sin [a])
  | .tan  => Folded.div (number 1) (Folded.pow (call .cos [a]) (number (Scalar.ofNat 2)))
  | .sqrt => Folded.div (number 1) (Folded.mul (number (Scalar.ofNat 2)) (call .sqrt [a]))
  | .log  => Folded.div (number 1) a

-- The derivative of an expression that is found at the given depth. What the variable does not
-- occur in is a constant and is not looked into.
def deriveAt (name : String) (t : Expr α) (depth : Nat) : Metered α (Expr α) := do
  Metered.step depth
  if !t.contains name then
    return number 0
  match t with
  | number _ | constant _ => return number 0
  | var x                 => return number (if x = name then 1 else 0)
  | .neg a                => return Folded.neg (← a.deriveAt name (depth + 1))
  | .add a b              =>
    let a' ← a.deriveAt name (depth + 1)
    let b' ← b.deriveAt name (depth + 1)
    return Folded.add a' b'
  | .sub a b              =>
    let a' ← a.deriveAt name (depth + 1)
    let b' ← b.deriveAt name (depth + 1)
    return Folded.sub a' b'
  | .mul a b              =>
    if !a.contains name then
      return Folded.mul a (← b.deriveAt name (depth + 1))
    else if !b.contains name then
      return Folded.mul (← a.deriveAt name (depth + 1)) b
    else
      let a' ← a.deriveAt name (depth + 1)
      let b' ← b.deriveAt name (depth + 1)
      return Folded.add (Folded.mul a' b) (Folded.mul a b')
  | .div a b              =>
    if !b.contains name then
      return Folded.div (← a.deriveAt name (depth + 1)) b
    else
      let a' ← a.deriveAt name (depth + 1)
      let b' ← b.deriveAt name (depth + 1)
      let numerator := Folded.sub (Folded.mul a' b) (Folded.mul a b')
      return Folded.div numerator (Folded.pow b (number (Scalar.ofNat 2)))
  | .pow a b              =>
    if !b.contains name then
      let a' ← a.deriveAt name (depth + 1)
      let reduced := Folded.pow a (Folded.sub b (number 1))
      return Folded.mul (Folded.mul b reduced) a'
    else if !a.contains name then
      let b' ← b.deriveAt name (depth + 1)
      return Folded.mul (Folded.mul (.pow a b) (Folded.log a)) b'
    else
      let b' ← b.deriveAt name (depth + 1)
      let a' ← a.deriveAt name (depth + 1)
      let inner := Folded.add (Folded.mul b' (Folded.log a)) (Folded.div (Folded.mul b a') a)
      return Folded.mul (.pow a b) inner
  | call f [a]            =>
    let a' ← a.deriveAt name (depth + 1)
    return Folded.mul (slope f a) a'
  | call f args           => throw (.unsupported (.derivative f args.length))
termination_by structural t

-- The derivative with respect to a variable. It is not simplified.
def differentiate (config : Config α) (name : String) (t : Expr α) :
    Except (Error α) (Expr α) := do
  t.checkDepth config.maxDepth
  (t.deriveAt name 1).run config.toLimits

end Expr

end InfixAlgebra
