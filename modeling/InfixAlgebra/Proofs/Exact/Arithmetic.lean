import InfixAlgebra.Proofs.Exact.Basic

namespace InfixAlgebra

namespace Exact

variable {K : Type} {I : Interpretation K} {x x' y y' : Exact I} {k : K}

-- When results are defined, and as what.

theorem lift_eq_some_iff {f : K → K → Option K} :
    (lift f x y : Exact I) = some k ↔ ∃ a b, x = some a ∧ y = some b ∧ f a b = some k where
  mp h := by
    cases x with
    | none   => cases h
    | some a =>
      cases y with
      | none   => cases h
      | some b => exact ⟨a, b, rfl, rfl, h⟩
  mpr := by
    rintro ⟨a, b, rfl, rfl, h⟩
    exact h

variable [Field K] [LinearOrder K]

theorem add_eq_some_iff :
    x + y = some k ↔ ∃ a b, x = some a ∧ y = some b ∧ a + b = k := by
  simp only [show x + y = lift _ x y from rfl, lift_eq_some_iff, Option.some_inj]

theorem sub_eq_some_iff :
    x - y = some k ↔ ∃ a b, x = some a ∧ y = some b ∧ a - b = k := by
  simp only [show x - y = lift _ x y from rfl, lift_eq_some_iff, Option.some_inj]

theorem mul_eq_some_iff :
    x * y = some k ↔ ∃ a b, x = some a ∧ y = some b ∧ a * b = k := by
  simp only [show x * y = lift _ x y from rfl, lift_eq_some_iff, Option.some_inj]

theorem div_eq_some_iff :
    x / y = some k ↔ ∃ a b, x = some a ∧ y = some b ∧ b ≠ 0 ∧ a / b = k := by
  simp only [show x / y = lift _ x y from rfl, lift_eq_some_iff, Option.ite_none_left_eq_some,
    Option.some_inj]

theorem neg_eq_some_iff : -x = some k ↔ ∃ a, x = some a ∧ -a = k :=
  Option.map_eq_some_iff

namespace Refines

theorem sub (hx : Refines x x') (hy : Refines y y') : Refines (x - y) (x' - y') :=
  hx.lift hy

theorem div (hx : Refines x x') (hy : Refines y y') : Refines (x / y) (x' / y') :=
  hx.lift hy

theorem mul_zero (x : Exact I) : Refines (x * 0) 0 :=
  mul_comm x 0 ▸ zero_mul x

end Refines

protected theorem neg_zero : (-0 : Exact I) = 0 :=
  congrArg some neg_zero

protected theorem zero_sub (x : Exact I) : 0 - x = -x := by
  rw [Exact.sub_eq_add_neg, zero_add]

protected theorem sub_zero (x : Exact I) : x - 0 = x := by
  rw [Exact.sub_eq_add_neg, Exact.neg_zero, add_zero]

protected theorem sub_neg (x y : Exact I) : x - -y = x + y := by
  rw [Exact.sub_eq_add_neg, Exact.neg_neg]

theorem refines_reciprocal_mul (x y : Exact I) : Refines (1 / x * y) (y / x) := by
  intro k hk
  obtain ⟨c, b, hc, hb, rfl⟩ := mul_eq_some_iff.mp hk
  obtain ⟨o, a, ho, ha, hne, rfl⟩ := div_eq_some_iff.mp hc
  cases ho
  exact div_eq_some_iff.mpr ⟨b, a, hb, ha, hne, (one_div_mul_eq_div a b).symm⟩

end Exact

end InfixAlgebra
