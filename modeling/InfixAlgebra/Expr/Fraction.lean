import InfixAlgebra.Expr.Canonical

namespace InfixAlgebra

structure Fraction (α : Type) where
  numerator : Expr α
  denominator : Expr α

namespace Expr

variable {α : Type} [Scalar α]

def times (a b : Expr α) : Expr α :=
  if a.isNumber 1 then b
  else if b.isNumber 1 then a
  else .mul a b

def raised (a : Expr α) (k : Nat) : Expr α :=
  if k = 1 || a.isNumber 1 then a
  else if k = 0 then number 1
  else .pow a (number (Scalar.ofNat k))

-- The exponent that a literal integer is. Its magnitude has to fit into 31 bits.
def integerExponent? (t : Expr α) : Option Int := do
  let k ←
    match t with
    | number x       => Scalar.toInt? x
    | neg (number x) => Scalar.toInt? (-x)
    | _              => none
  if k.natAbs < Nat.pow 2 31 then some k else none

-- What a sum adds up, with `false` for what is subtracted.
def addends (positive : Bool) : Expr α → List (Bool × Expr α)
  | add a b => a.addends positive ++ b.addends positive
  | sub a b => a.addends positive ++ b.addends (!positive)
  | t       => [(positive, t)]

def leading : Expr α → α × Expr α
  | number x => (x, number 1)
  | neg a    =>
    let (x, rest) := a.leading
    (-x, rest)
  | mul a b  =>
    let (x, rest) := a.leading
    (x, times rest b)
  | t        => (1, t)

def sign (positive : Bool) : α :=
  if positive then 1 else -1

variable [NumberText α]

-- An expression as one fraction. Unless two denominators are equal, a sum has their product for
-- its denominator.
def fractionAt (t : Expr α) (depth : Nat) : Metered α (Fraction α) := do
  Metered.step depth
  match t with
  | neg a         =>
    let f ← a.fractionAt (depth + 1)
    return ⟨neg f.numerator, f.denominator⟩
  | add a b       => return cross .add (← a.fractionAt (depth + 1)) (← b.fractionAt (depth + 1))
  | sub a b       => return cross .sub (← a.fractionAt (depth + 1)) (← b.fractionAt (depth + 1))
  | mul a b       =>
    let f ← a.fractionAt (depth + 1)
    let g ← b.fractionAt (depth + 1)
    return ⟨times f.numerator g.numerator, times f.denominator g.denominator⟩
  | div a b       =>
    let f ← a.fractionAt (depth + 1)
    let g ← b.fractionAt (depth + 1)
    return ⟨times f.numerator g.denominator, times f.denominator g.numerator⟩
  | pow a b       =>
    match b.integerExponent? with
    | none   => return ⟨pow a b, number 1⟩
    | some k =>
      let f ← a.fractionAt (depth + 1)
      if 0 ≤ k then
        return ⟨raised f.numerator k.natAbs, raised f.denominator k.natAbs⟩
      else
        return ⟨raised f.denominator k.natAbs, raised f.numerator k.natAbs⟩
  | t             => return ⟨t, number 1⟩
termination_by structural t
where
  cross (op : Operator) (f g : Fraction α) : Fraction α :=
    if f.denominator == g.denominator then
      ⟨binary op f.numerator g.numerator, f.denominator⟩
    else
      ⟨binary op (times f.numerator g.denominator) (times g.numerator f.denominator),
        times f.denominator g.denominator⟩

def distribute (a b : Expr α) : Metered α (Expr α) := do
  if !a.isSum && !b.isSum then
    return ← product (.mul a b)
  let as := a.addends true
  let bs := b.addends true
  Metered.charge (as.length * bs.length)
  let products ← (as.flatMap fun s => bs.map fun t => (s, t)).mapM fun ((p, s), (q, t)) => do
    return (sign (p == q), ← product (.mul s t))
  sum products

def distributeTimes (a : Expr α) : Nat → Expr α → Metered α (Expr α)
  | 0, t     => return t
  | n + 1, t => do distributeTimes a n (← distribute t a)

-- The canonical form with products of sums multiplied out, and powers of sums up to the exponent
-- `maxPower`.
def expandAt (maxPower : Nat) (t : Expr α) (depth : Nat) : Metered α (Expr α) := do
  Metered.step depth
  match t with
  | add a b =>
    let a ← a.expandAt maxPower (depth + 1)
    let b ← b.expandAt maxPower (depth + 1)
    sum [(1, .add a b)]
  | sub a b =>
    let a ← a.expandAt maxPower (depth + 1)
    let b ← b.expandAt maxPower (depth + 1)
    sum [(1, .sub a b)]
  | neg a   => product (neg (← a.expandAt maxPower (depth + 1)))
  | mul a b =>
    let a ← a.expandAt maxPower (depth + 1)
    let b ← b.expandAt maxPower (depth + 1)
    distribute a b
  | pow a b =>
    let a ← a.expandAt maxPower (depth + 1)
    match b.integerExponent? with
    | some k =>
      if a.isSum && 2 ≤ k && k ≤ maxPower then
        distributeTimes a (k.toNat - 1) a
      else
        canonicalAt (.pow a b) depth
    | none   => canonicalAt (.pow a b) depth
  | t       => t.canonicalAt depth
termination_by structural t

-- Divides each coefficient of a canonical sum, provided that every quotient is an integer.
def divideCoefficients? (divisor : α) (t : Expr α) : Option (List (α × Expr α)) :=
  let parts := (t.addends true).map fun (positive, s) =>
    let (x, rest) := s.leading
    (positive, x / divisor, rest)
  if parts.all fun (_, x, _) => (Scalar.toInt? x).isSome then
    some (parts.map fun (positive, x, rest) => (sign positive, .mul (number x) rest))
  else
    none

-- The quotient of two canonical sums. A numeric denominator goes into the coefficients if that
-- leaves integers.
def reduce (f : Fraction α) : Metered α (Expr α) := do
  match f.denominator with
  | number x =>
    if Scalar.isFinite x && !(x == 0) && !(x == 1) then
      match f.numerator.divideCoefficients? x with
      | some addends => sum addends
      | none         => return quotient f.numerator f.denominator
    else
      return quotient f.numerator f.denominator
  | _        => return quotient f.numerator f.denominator

def rationalized (maxPower : Nat) (t : Expr α) : Metered α (Expr α) := do
  let f ← t.fractionAt 1
  let numerator ← f.numerator.expandAt maxPower 1
  let denominator ← f.denominator.expandAt maxPower 1
  reduce ⟨numerator, denominator⟩

def rationalize (config : Config α) (t : Expr α) : Except (Error α) (Expr α) :=
  (rationalized config.maxExpandPower t).run config.toLimits

end Expr

end InfixAlgebra
