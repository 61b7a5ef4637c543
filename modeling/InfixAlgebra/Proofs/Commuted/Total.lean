import InfixAlgebra.Proofs.Normal.Regular

namespace InfixAlgebra

-- What is done with rational numbers other than adding and multiplying them: anything, as long as
-- it gives a number each time.
structure Operations where
  constant : Constant → ℚ
  elementary : Elementary → ℚ → ℚ
  div : ℚ → ℚ → ℚ
  pow : ℚ → ℚ → ℚ

-- Rational numbers with exact sums and products and the given operations, all of which are folded.
def Total (_ : Operations) : Type :=
  ℚ

namespace Total

variable {ops : Operations}

instance : DecidableEq (Total ops) :=
  inferInstanceAs (DecidableEq ℚ)

instance : Scalar (Total ops) where
  zero         := (0 : ℚ)
  one          := (1 : ℚ)
  neg          := fun x : ℚ => -x
  add          := fun x y : ℚ => x + y
  sub          := fun x y : ℚ => x - y
  mul          := fun x y : ℚ => x * y
  div          := ops.div
  beq x y      := decide (x = y)
  ofNat n      := (n : ℚ)
  pow          := ops.pow
  constant     := ops.constant
  elementary   := ops.elementary
  abs          := fun x : ℚ => (|x| : ℚ)
  lt           := fun x y : ℚ => decide (x < y)
  le           := fun x y : ℚ => decide (x ≤ y)
  isFinite _   := true
  toInt?       := fun x : ℚ => if x.den = 1 then some x.num else none
  round        := fun x : ℚ => if x < 0 then -((1 / 2 - x).floor : ℚ) else ((x + 1 / 2).floor : ℚ)

instance : AddCommMonoid (Total ops) where
  __ := (inferInstance : Add (Total ops))
  __ := (inferInstance : Zero (Total ops))
  add_assoc := Rat.add_assoc
  zero_add  := Rat.zero_add
  add_zero  := Rat.add_zero
  add_comm  := Rat.add_comm
  nsmul     := nsmulRec

instance : CommMonoid (Total ops) where
  __ := (inferInstance : Mul (Total ops))
  __ := (inferInstance : One (Total ops))
  mul_assoc := Rat.mul_assoc
  one_mul   := Rat.one_mul
  mul_one   := Rat.mul_one
  mul_comm  := Rat.mul_comm

theorem beq_iff {x y : Total ops} : x == y ↔ x = y :=
  decide_eq_true_iff

instance : LawfulBEq (Total ops) where
  eq_of_beq := beq_iff.mp
  rfl       := beq_iff.mpr rfl

theorem neg_one_mul_eq (x : Total ops) : -1 * x = -x :=
  (Rat.neg_mul 1 x).trans (congrArg (-·) (Rat.one_mul x))

instance : Scalar.Regular (Total ops) where
  one_mul_eq x       := one_mul x
  neg_one_mul_neg x  := (neg_one_mul_eq (-x)).trans (Rat.neg_neg x)
  beq_comm x y       := by rw [Bool.eq_iff_iff, beq_iff, beq_iff, eq_comm]
  eq_one             := beq_iff.mp
  eq_neg_one         := beq_iff.mp
  one_beq_one        := beq_iff.mpr rfl
  not_one_beq_zero h := absurd (beq_iff.mp h) (by decide : (1 : ℚ) ≠ 0)
  not_one_lt_zero h  := absurd (of_decide_eq_true h) (by decide : ¬(1 : ℚ) < 0)
  not_neg_beq_zero {x} hx h := by
    have hneg (q : ℚ) (hq : decide (q < 0)) : ¬decide (-q = 0) :=
      fun h => (of_decide_eq_true hq).ne (neg_eq_zero.mp (of_decide_eq_true h))
    exact hneg x hx h

end Total

namespace Expr

variable {ops : Operations}

-- The numbers of a product may be multiplied in any order.
theorem coefficientFrom_eq_mul (x : Total ops) (t : Expr (Total ops)) :
    t.coefficientFrom x = x * t.coefficient := by
  have hfrom (t : Expr (Total ops)) : ∀ x, t.coefficientFrom x = x * t.coefficient := by
    induction t with
    | number y =>
      intro x
      rw [coefficient, coefficientFrom, coefficientFrom, one_mul]
    | neg a ih =>
      intro x
      rw [coefficient, coefficientFrom, coefficientFrom, ih, ih (-1), ← mul_assoc]
      exact congrArg (· * a.coefficient) ((mul_comm x (-1)).trans (Total.neg_one_mul_eq x)).symm
    | binary op a b iha ihb =>
      cases op with
      | mul =>
        intro x
        rw [coefficient, coefficientFrom, coefficientFrom, ihb, iha, ihb (a.coefficientFrom 1),
          mul_assoc]
        rfl
      | _ => exact fun x => (mul_one x).symm
    | _ => exact fun x => (mul_one x).symm
  exact hfrom t x

theorem coefficient_mul (a b : Expr (Total ops)) :
    (mul a b).coefficient = a.coefficient * b.coefficient :=
  coefficientFrom_eq_mul a.coefficient b

end Expr

end InfixAlgebra
