import Mathlib
import InfixAlgebra.Scalar

namespace InfixAlgebra

-- What the symbols of expressions stand for among the elements of an exact ordered field.
--
-- Functions and powers may be undefined. Which elements count as integers and how elements are
-- rounded is of no concern to expressions.
structure Interpretation (K : Type) where
  constant : Constant → K
  elementary : Elementary → K → Option K
  pow : K → K → Option K
  toInt? : K → Option Int
  round : K → K

-- The laws of powers that simplification relies on.
structure Interpretation.Lawful {K : Type} [Field K] (I : Interpretation K) : Prop where
  pow_zero : ∀ u, I.pow u 0 = some 1
  pow_one  : ∀ u, I.pow u 1 = some u
  one_pow  : ∀ v, I.pow 1 v = some 1
  pow_add  : ∀ {u v w x y}, I.pow u v = some x → I.pow u w = some y →
    I.pow u (v + w) = some (x * y)

-- Elements of a field where they are defined. What is undefined plays the part of the numbers that
-- are not finite.
def Exact {K : Type} (_ : Interpretation K) : Type :=
  Option K

namespace Exact

variable {K : Type} {I : Interpretation K}

def compare (r : K → K → Bool) (x y : Exact I) : Bool :=
  match x, y with
  | some a, some b => r a b
  | _, _           => false

def lift (f : K → K → Option K) (x y : Exact I) : Exact I :=
  match x, y with
  | some a, some b => f a b
  | _, _           => none

variable {x x' y y' z : Exact I}

-- Whatever `x` is defined as, `y` is defined as the same.
def Refines (x y : Exact I) : Prop :=
  ∀ k, x = some k → y = some k

namespace Refines

theorem refl (x : Exact I) : Refines x x :=
  fun _ h => h

theorem of_eq (h : x = y) : Refines x y :=
  h ▸ refl x

theorem trans (h₁ : Refines x y) (h₂ : Refines y z) : Refines x z :=
  fun k h => h₂ k (h₁ k h)

-- Operations on what is defined give the same on what refines it.
theorem lift {f : K → K → Option K} (hx : Refines x x') (hy : Refines y y') :
    Refines (lift f x y : Exact I) (lift f x' y') := by
  cases x with
  | none   => nofun
  | some a =>
    cases y with
    | none   => nofun
    | some b =>
      rw [hx a rfl, hy b rfl]
      exact refl _

end Refines

variable [Field K] [LinearOrder K]

instance : Scalar (Exact I) where
  zero           := some 0
  one            := some 1
  neg x          := Option.map (-·) x
  add            := lift fun a b => some (a + b)
  sub            := lift fun a b => some (a - b)
  mul            := lift fun a b => some (a * b)
  div            := lift fun a b => if b = 0 then none else some (a / b)
  beq            := compare fun a b => a = b
  ofNat n        := some n
  pow            := lift I.pow
  constant c     := some (I.constant c)
  elementary f x := Option.bind x (I.elementary f)
  abs x          := Option.map (fun a => max a (-a)) x
  lt             := compare fun a b => a < b
  le             := compare fun a b => a ≤ b
  isFinite x     := Option.isSome x
  toInt? x       := Option.bind x I.toInt?
  round x        := Option.map I.round x

-- Products and sums of what may be undefined are as commutative and associative as those of
-- elements.

instance : CommMonoid (Exact I) where
  __ := (inferInstance : Mul (Exact I))
  __ := (inferInstance : One (Exact I))
  mul_assoc x y z := by
    cases x <;> cases y <;> cases z <;> first | rfl | exact congrArg some (mul_assoc ..)
  one_mul x := by
    cases x <;> first | rfl | exact congrArg some (one_mul _)
  mul_one x := by
    cases x <;> first | rfl | exact congrArg some (mul_one _)
  mul_comm x y := by
    cases x <;> cases y <;> first | rfl | exact congrArg some (mul_comm ..)

instance : AddCommMonoid (Exact I) where
  __ := (inferInstance : Add (Exact I))
  __ := (inferInstance : Zero (Exact I))
  add_assoc x y z := by
    cases x <;> cases y <;> cases z <;> first | rfl | exact congrArg some (add_assoc ..)
  zero_add x := by
    cases x <;> first | rfl | exact congrArg some (zero_add _)
  add_zero x := by
    cases x <;> first | rfl | exact congrArg some (add_zero _)
  add_comm x y := by
    cases x <;> cases y <;> first | rfl | exact congrArg some (add_comm ..)
  nsmul := nsmulRec

protected theorem mul_add (x y z : Exact I) : x * (y + z) = x * y + x * z := by
  cases x <;> cases y <;> cases z <;> first | rfl | exact congrArg some (mul_add ..)

protected theorem neg_mul (x y : Exact I) : -x * y = -(x * y) := by
  cases x <;> cases y <;> first | rfl | exact congrArg some (neg_mul ..)

protected theorem neg_neg (x : Exact I) : - -x = x := by
  cases x <;> first | rfl | exact congrArg some (neg_neg _)

protected theorem sub_eq_add_neg (x y : Exact I) : x - y = x + -y := by
  cases x <;> cases y <;> first | rfl | exact congrArg some (sub_eq_add_neg ..)

protected theorem add_mul (x y z : Exact I) : (x + y) * z = x * z + y * z := by
  rw [mul_comm, Exact.mul_add, mul_comm z x, mul_comm z y]

protected theorem mul_neg (x y : Exact I) : x * -y = -(x * y) := by
  rw [mul_comm, Exact.neg_mul, mul_comm]

-- Numbers that compare as equal are equal.
theorem eq_of_beq (h : x == y) : x = y := by
  cases x <;> cases y <;> first | exact congrArg some (of_decide_eq_true h) | cases h

namespace Refines

theorem mul (hx : Refines x x') (hy : Refines y y') : Refines (x * y) (x' * y') :=
  hx.lift hy

theorem add (hx : Refines x x') (hy : Refines y y') : Refines (x + y) (x' + y') :=
  hx.lift hy

theorem neg (hx : Refines x x') : Refines (-x) (-x') := by
  cases x with
  | none   => nofun
  | some a => exact of_eq (congrArg (-·) (hx a rfl).symm)

theorem elementary (f : Elementary) (hx : Refines x x') :
    Refines (Scalar.elementary f x) (Scalar.elementary f x') := by
  cases x with
  | none   => nofun
  | some a => exact of_eq (congrArg (Scalar.elementary f) (hx a rfl).symm)

theorem apply (op : Operator) (hx : Refines x x') (hy : Refines y y') :
    Refines (op.apply x y) (op.apply x' y') := by
  cases op <;> exact hx.lift hy

theorem sum {xs ys : List (Exact I)} (h : List.Forall₂ Refines xs ys) :
    Refines xs.sum ys.sum := by
  induction h with
  | nil         => exact refl _
  | cons h _ ih =>
    rw [List.sum_cons, List.sum_cons]
    exact h.add ih

-- A factor of zero leaves nothing but whether the other one is defined.
theorem zero_mul (x : Exact I) : Refines (0 * x) 0 := by
  cases x with
  | none   => nofun
  | some a => exact of_eq (congrArg some (MulZeroClass.zero_mul a))

end Refines

theorem refines_div_one (x : Exact I) : Refines (x / 1) x := by
  cases x with
  | none   => nofun
  | some a =>
    refine .of_eq ((if_neg one_ne_zero).trans ?_)
    exact congrArg some (div_one a)

theorem refines_zero_div (y : Exact I) : Refines (0 / y) 0 := by
  cases y with
  | none   => nofun
  | some b =>
    intro k hk
    by_cases hb : b = 0
    case pos => cases (if_pos hb).symm.trans hk
    case neg => rw [← hk]; exact ((if_neg hb).trans (congrArg some (zero_div b))).symm

theorem refines_div_self (x : Exact I) : Refines (x / x) 1 := by
  cases x with
  | none   => nofun
  | some a =>
    intro k hk
    by_cases ha : a = 0
    case pos => cases (if_pos ha).symm.trans hk
    case neg => rw [← hk]; exact ((if_neg ha).trans (congrArg some (div_self ha))).symm

end Exact

end InfixAlgebra
