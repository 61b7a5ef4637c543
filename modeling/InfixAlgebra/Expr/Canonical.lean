import InfixAlgebra.Expr.Evaluation
import InfixAlgebra.Expr.Term

namespace InfixAlgebra

namespace Expr

variable {α : Type}

theorem size_le_of_mem_factors {s t : Expr α} (h : s ∈ t.factors) : s.size ≤ t.size := by
  induction t with
  | number x => simp [factors] at h
  | neg a ih =>
    have := ih h
    simp only [size]
    omega
  | binary op a b iha ihb =>
    cases op with
    | mul =>
      simp only [size]
      rcases List.mem_append.mp h with h | h
      · have := iha h
        omega
      · have := ihb h
        omega
    | _ => exact Nat.le_of_eq (congrArg size (List.mem_singleton.mp h))
  | _ => exact Nat.le_of_eq (congrArg size (List.mem_singleton.mp h))

-- The sum that a product consists of, numbers apart.
def scaledSum? : Expr α → Option (Expr α)
  | neg a   => only? a.factors
  | mul a b => only? (a.factors ++ b.factors)
  | _       => none
where
  only? : List (Expr α) → Option (Expr α)
    | [s] => if s.isSum then some s else none
    | _   => none

theorem eq_singleton_of_only? {ts : List (Expr α)} {s : Expr α}
    (h : scaledSum?.only? ts = some s) : ts = [s] := by
  unfold scaledSum?.only? at h
  split at h <;> simp_all

theorem size_lt_of_scaledSum? {s t : Expr α} (h : t.scaledSum? = some s) : s.size < t.size := by
  unfold scaledSum? at h
  split at h
  case h_1 a =>
    have := size_le_of_mem_factors (t := a) (s := s) (by simp [eq_singleton_of_only? h])
    simp only [size]
    omega
  case h_2 a b =>
    have hs : s ∈ a.factors ++ b.factors := by simp [eq_singleton_of_only? h]
    simp only [size]
    rcases List.mem_append.mp hs with hs | hs
    all_goals
      have := size_le_of_mem_factors hs
      omega
  case h_3 => simp at h

variable [Scalar α]

-- Adds `scale` times an expression to the terms of a sum. Sums are taken apart, also where they
-- are scaled by a number.
def collect (scale : α) (t : Expr α) (terms : List (Term α)) : Metered α (List (Term α)) := do
  Metered.charge 1
  match t with
  | add a b => collect scale b (← collect scale a terms)
  | sub a b => collect (-scale) b (← collect scale a terms)
  | t =>
    match _ : t.scaledSum? with
    | some s => collect (scale * t.coefficient) s terms
    | none   => return Term.merge ⟨scale * t.coefficient, t.factors⟩ terms
termination_by t.size
decreasing_by
  all_goals first
    | exact size_lt_of_scaledSum? (by assumption)
    | simp only [size]; omega

variable [NumberText α]

-- Lets coefficients go into sums until none of them stands next to a sum. Whatever changes goes
-- through `product` and is added again, so `rounds` limits how often this is done.
def settle (product : Expr α → Metered α (Expr α)) :
    (rounds : Nat) → List (Term α) → Metered α (List (Term α))
  | 0, _ => Metered.exhausted
  | n + 1, terms => do
    let (scaled, kept) := (terms.filter fun t => !(t.coefficient == 0)).partition Term.scalesSum
    if scaled.isEmpty then
      return kept
    let products ← scaled.mapM fun t => product t.toExpr
    settle product n (← products.reverse.foldlM (fun ts t => collect 1 t ts) kept)

def sumWith (product : Expr α → Metered α (Expr α)) (rounds : Nat) (addends : List (α × Expr α)) :
    Metered α (Expr α) := do
  let terms ← addends.foldlM (fun ts (scale, t) => collect scale t ts) []
  let terms ← settle product rounds terms
  Metered.checkChain terms.length
  return Term.sumOf terms

def spread (sum : List (α × Expr α) → Metered α (Expr α)) (t : Term α) : Metered α (Term α) :=
  if t.scalesSum then
    match t.factors.span (!·.isSum) with
    | (before, s :: after) => do
      let s ← sum [(1, .mul (.number t.coefficient) s)]
      return ⟨1, Power.group (before ++ s :: after)⟩
    | _ => return t
  else
    return t

-- The canonical product of what is canonical itself. Sums and products call each other no more
-- than `nesting` times.
def productWithin : (nesting : Nat) → Expr α → Metered α (Expr α)
  | 0, _ => Metered.exhausted
  | n + 1, t => do
    let sum := sumWith (productWithin n) n
    Metered.charge t.factors.length
    if t.coefficient == 0 then
      return number 0
    let t ← spread sum ⟨t.coefficient, Power.group t.factors⟩
    Metered.checkChain (t.factors.length + 1)
    match t.factors with
    | [s] => if s.isSum then sum [(1, t.toExpr)] else return t.toExpr
    | _   => return t.toExpr

-- Whenever sums and products call each other something has been paid for, so the allowance of
-- operations is used up before this one is.
def nesting : Metered α Nat := do
  return (← read).maxOperations + 1

def product (t : Expr α) : Metered α (Expr α) := do
  productWithin (← nesting) t

def sum (addends : List (α × Expr α)) : Metered α (Expr α) := do
  let n ← nesting
  sumWith (productWithin n) n addends

def quotient (a b : Expr α) : Expr α :=
  (fold? .div a b).getD <|
    if b.isNumber 1 then a
    else if a.isNumber 0 && !b.isNumber 0 then number 0
    else if a == b && a.number?.isNone then number 1
    else .div a b

def power (a b : Expr α) : Expr α :=
  if b.isNumber 0 || a.isNumber 1 then number 1
  else if b.isNumber 1 then a
  else (fold? .pow a b).getD (.pow a b)

def application (f : Elementary) (args : List (Expr α)) : Expr α :=
  match args with
  | [number x] =>
    let y := Scalar.elementary f x
    if Scalar.isFinite y then number y else call f args
  | args => call f args

mutual

def canonicalAt (t : Expr α) (depth : Nat) : Metered α (Expr α) := do
  Metered.step depth
  match t with
  | number x        => return number x
  | constant c      => return constant c
  | var name        => return var name
  | neg a           => product (.neg (← a.canonicalAt (depth + 1)))
  | binary op a b   =>
    let a ← a.canonicalAt (depth + 1)
    let b ← b.canonicalAt (depth + 1)
    match op with
    | .add | .sub => sum [(1, binary op a b)]
    | .mul        => product (.mul a b)
    | .div        => return quotient a b
    | .pow        => return power a b
  | call f args     => return application f (← canonicalAllAt args (depth + 1))
termination_by structural t

def canonicalAllAt (ts : List (Expr α)) (depth : Nat) : Metered α (List (Expr α)) := do
  match ts with
  | []      => return []
  | t :: ts =>
    let t ← t.canonicalAt depth
    return t :: (← canonicalAllAt ts depth)
termination_by structural ts

end

-- The canonical form of an expression: sums are lists of terms without like ones, products are a
-- number and powers of different bases, both are ordered, and numbers are folded where the result
-- is finite.
def canonical (config : Config α) (t : Expr α) : Except (Error α) (Expr α) :=
  (t.canonicalAt 1).run config.toLimits

end Expr

inductive Simplified (α : Type)
  | expr (t : Expr α)
  | value (v : Value α)

namespace Simplified

variable {α : Type} [Scalar α] [NumberText α]

def render : Simplified α → String
  | expr t  => t.render
  | value v => v.render

end Simplified

-- Without bindings the canonical form, with them the value.
def Expr.simplify {α : Type} [Scalar α] [NumberText α] (config : Config α) (scope : Scope α)
    (t : Expr α) : Except (Error α) (Simplified α) :=
  if scope.isEmpty then
    .expr <$> t.canonical config
  else
    .value <$> t.evaluate config scope

end InfixAlgebra
