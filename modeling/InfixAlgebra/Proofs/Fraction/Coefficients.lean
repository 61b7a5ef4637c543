import InfixAlgebra.Expr.Fraction
import InfixAlgebra.Proofs.Canonical.Equality
import InfixAlgebra.Proofs.Double.Quotient

namespace InfixAlgebra

namespace Double

variable {c d : Float}

-- A number that has been divided by another one with an integer as the result. The rounding of the
-- quotient is all that there is between the two.
structure DividedUpToRounding (c d : Float) : Prop where
  isFinite  : c.isFinite
  multiple  : ∀ z : ℤ, |z| < 2 ^ 53 → value c = z * value d → value (c / d) = z
  fits      : Fits c d → value (c / d) * value d = value c
  nonzero   : value (c / d) ≠ 0 → |value (c / d) * value d - value c| ≤ |value c| / 2 ^ 53
  underflow : value (c / d) = 0 → |value c| ≤ |value d| / 2 ^ 1075

structure Multiple (c d : Float) : Prop where
  isFinite : c.isFinite
  small    : |value c / value d| < 2 ^ 1023
  integral : ∃ z : ℤ, value c = z * value d

theorem value_ne_zero_of_not_beq (hd : d.isFinite) (hzero : ¬d == 0) : value d ≠ 0 := by
  rcases zero_or_finite hd with ⟨s, hx⟩ | ⟨s, m, e, hm, hx⟩
  case inl =>
    rw [beq_eq, hx] at hzero
    exact absurd rfl hzero
  case inr => exact value_ne_zero hx

theorem dividedUpToRounding (hd : d.isFinite) (hzero : ¬d == 0)
    (hint : (toInt? (c / d)).isSome) : DividedUpToRounding c d := by
  have hne := value_ne_zero_of_not_beq hd hzero
  have hquotient := isFinite_of_toInt? hint
  have hc := isFinite_of_div hd hquotient
  exact {
    isFinite  := hc
    multiple  := fun z hlt hz => value_div_eq hc hd hne hquotient hz hlt
    fits      := div_mul_eq hc hd hne hint
    nonzero   := abs_div_mul_sub_le hc hd hne hint
    underflow := abs_le_of_div_eq_zero hc hd hne hquotient }

theorem Multiple.isSome_toInt? (h : Multiple c d) (hd : d.isFinite) (hzero : ¬d == 0) :
    (toInt? (c / d)).isSome := by
  have ⟨_, hz⟩ := h.integral
  exact isSome_toInt?_div h.isFinite hd (value_ne_zero_of_not_beq hd hzero) hz h.small

end Double

namespace Expr

section

variable {α : Type} [Scalar α] {t : Expr α} {d : α} {addends : List (α × Expr α)}

def coefficients (t : Expr α) : List α :=
  (t.addends true).map fun s => s.2.leading.1

def dividedBy (d : α) (t : Expr α) : List (α × Expr α) :=
  (t.addends true).map fun s => (sign s.1, mul (number (s.2.leading.1 / d)) s.2.leading.2)

theorem divideCoefficients?_eq :
    t.divideCoefficients? d =
      if t.coefficients.all fun c => (Scalar.toInt? (c / d)).isSome then some (t.dividedBy d)
      else none := by
  rw [divideCoefficients?, coefficients, dividedBy]
  simp only [List.all_map, List.map_map]
  rfl

theorem divideCoefficients?_eq_some_iff :
    t.divideCoefficients? d = some addends ↔
      (∀ c ∈ t.coefficients, (Scalar.toInt? (c / d)).isSome) ∧ addends = t.dividedBy d := by
  rw [divideCoefficients?_eq, Option.ite_none_right_eq_some, List.all_eq_true, Option.some_inj,
    eq_comm]

theorem divideCoefficients?_eq_none_iff :
    t.divideCoefficients? d = none ↔ ∃ c ∈ t.coefficients, ¬(Scalar.toInt? (c / d)).isSome := by
  simp [divideCoefficients?_eq]

variable [NumberText α]

theorem reduce_of_divided (hd : Scalar.isFinite d) (hzero : ¬d == 0) (hone : ¬d == 1)
    (h : t.divideCoefficients? d = some addends) : reduce ⟨t, number d⟩ = sum addends := by
  simp [reduce, hd, hzero, hone, h]

theorem reduce_of_kept (h : t.divideCoefficients? d = none) :
    reduce ⟨t, number d⟩ = pure (quotient t (number d)) := by
  simp [reduce, h]

end

open Double

-- Coefficients are divided where all of the rounded quotients are integers. What this leaves
-- between a coefficient and its quotient is the rounding: nothing for integers that are not too
-- large, and a small part of the coefficient otherwise, unless the quotient is smaller than all
-- numbers. A fraction is only kept if its coefficients are not all multiples of the divisor.
theorem divides_coefficients_up_to_rounding (t : Expr Float) {d : Float} (hd : d.isFinite)
    (hzero : ¬d == 0) :
    (∀ addends, t.divideCoefficients? d = some addends →
      addends = t.dividedBy d ∧ (∀ c ∈ t.coefficients, DividedUpToRounding c d) ∧
        (¬d == 1 → reduce ⟨t, number d⟩ = sum addends)) ∧
      (t.divideCoefficients? d = none →
        (∃ c ∈ t.coefficients, ¬Multiple c d) ∧
          reduce ⟨t, number d⟩ = pure (quotient t (number d))) := by
  constructor
  case left =>
    intro addends h
    have ⟨hint, heq⟩ := divideCoefficients?_eq_some_iff.mp h
    exact ⟨heq, fun c hc => dividedUpToRounding hd hzero (hint c hc),
      fun hone => reduce_of_divided hd hzero hone h⟩
  case right =>
    intro h
    have ⟨c, hc, hint⟩ := divideCoefficients?_eq_none_iff.mp h
    exact ⟨⟨c, hc, fun hmultiple => hint (hmultiple.isSome_toInt? hd hzero)⟩, reduce_of_kept h⟩

-- (6 * x - 4 * y) / 2 and 3 * x / 2
theorem divides_coefficients_of_even :
    let t : Expr Float := sub (mul (number 6) (var "x")) (mul (number 4) (var "y"))
    let u : Expr Float := mul (number 3) (var "x")
    Float.isFinite 2 ∧ ¬(2 : Float) == 0 ∧
      t.divideCoefficients? 2 =
        some [(1, mul (number 3) (var "x")), (-1, mul (number 2) (var "y"))] ∧
      (∀ c ∈ t.coefficients, value (c / 2) * value 2 = value c) ∧
      u.divideCoefficients? 2 = none ∧ (∃ c ∈ u.coefficients, ¬Multiple c 2) ∧
      reduce ⟨u, number 2⟩ = pure (quotient u (number 2)) := by
  intro t u
  have hd : Float.isFinite 2 := by decide +kernel
  have hzero : ¬(2 : Float) == 0 := by decide +kernel
  have ht : t.divideCoefficients? 2 =
      some [(1, mul (number 3) (var "x")), (-1, mul (number 2) (var "y"))] := by decide +kernel
  have hu : u.divideCoefficients? 2 = none := by decide +kernel
  have ⟨_, hdivided, _⟩ := (divides_coefficients_up_to_rounding t hd hzero).1 _ ht
  have ⟨hmultiple, hkept⟩ := (divides_coefficients_up_to_rounding u hd hzero).2 hu
  refine ⟨hd, hzero, ht, fun c hc => (hdivided c hc).fits ?_, hu, hmultiple, hkept⟩
  have hc : c ∈ [(6 : Float), 4] := hc
  rw [List.mem_cons, List.mem_singleton] at hc
  rcases hc with rfl | rfl
  · exact ⟨6, 2, 0, by decide +kernel⟩
  · exact ⟨4, 2, 0, by decide +kernel⟩

-- Half of the least number is rounded to zero, which is an integer.
theorem divides_coefficients_inexactly :
    let t : Expr Float := mul (number 5e-324) (var "x")
    t.canonical .standard = .ok t ∧ Float.isFinite 2 ∧ ¬(2 : Float) == 0 ∧
      t.divideCoefficients? 2 = some [(1, mul (number 0) (var "x"))] ∧
      (∃ c ∈ t.coefficients, value (c / 2) * value 2 ≠ value c) ∧
      (div t (number 2)).rationalize .standard = .ok (number 0) := by
  intro t
  exact ⟨by decide +kernel, by decide +kernel, by decide +kernel, by decide +kernel,
    ⟨5e-324, .head _, by decide +kernel⟩, by decide +kernel⟩

-- So are large quotients, of which no places behind the point are kept.
example : (div (mul (number 1e20) (var "x")) (number 3) : Expr Float).rationalize .standard =
    .ok (mul (number (1e20 / 3)) (var "x")) ∧ value (1e20 / 3) * value 3 ≠ value 1e20 := by
  decide +kernel

end Expr

end InfixAlgebra
