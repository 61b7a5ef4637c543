import InfixAlgebra.Proofs.Double.Ordered
import InfixAlgebra.Proofs.MultipliedOut.Fraction

namespace InfixAlgebra

instance : Scalar.Counting Float where
  ofNat_one := Double.ofNat_one
  toInt?_ofNat h := Double.toInt?_ofNat (Nat.lt_trans h (by decide))
  ofNat_le_ofNat hm hmn hn := Double.ofNat_le_ofNat hm hmn (Nat.lt_trans hn (by decide))
  le_add hn hlt hx hy := by
    have hlt := Nat.lt_trans hlt (by decide : 2 ^ 31 < 2 ^ 53)
    exact (Double.le_ofNat_iff hn hlt).mpr
      (((Double.le_ofNat_iff hn hlt).mp hx).add (Double.one_le_iff.mp hy))
  two_le_add hx hy :=
    Double.two_le_iff.mpr ((Double.one_le_iff.mp hx).two (Double.one_le_iff.mp hy))
  le_of_toInt? hn hlt := Double.le_of_toInt? hn (Nat.lt_trans hlt (by decide))
  not_lt_zero h := Double.not_lt_zero_of_reaches (Double.one_le_iff.mp h)

namespace Expr

-- Rationalizing gives one fraction that is multiplied out, or an expression without any quotient
-- that is: no exponent in it is negative, no product has a sum among its factors, and powers of
-- sums have no exponent that they are multiplied out for.
theorem rationalForm_of_rationalize {config : Config Float} {t r : Expr Float}
    (ht : t.IntegerPowers) (h : t.rationalize config = .ok r) :
    r.RationalForm config.maxExpandPower :=
  ht.rationalForm h

-- (x + y) ^ 9 / x + y ^ -1, where the power of the sum is too high to be multiplied out.
theorem rationalForm_of_high_power :
    let sum : Expr Float := add (var "x") (var "y")
    let t := add (div (pow sum (number 9)) (var "x")) (pow (var "y") (neg (number 1)))
    let r := div (add (mul (pow sum (number 9)) (var "y")) (var "x")) (mul (var "x") (var "y"))
    t.IntegerPowers ∧ t.rationalize .standard = .ok r ∧
      r.RationalForm (Config.standard : Config Float).maxExpandPower := by
  intro sum t r
  have hsum : sum.IntegerPowers := .binary nofun (.var "x") (.var "y")
  have ht : t.IntegerPowers := by
    refine .binary nofun (.binary nofun (.pow hsum ?_) (.var "x")) (.pow (.var "y") ?_)
    · decide +kernel
    · decide +kernel
  have h : t.rationalize .standard = .ok r := by
    subst t r sum
    decide +kernel
  exact ⟨ht, h, rationalForm_of_rationalize ht h⟩

-- An integer that does not fit into 31 bits is not taken for the exponent of a power that can be
-- inverted.
theorem not_rationalForm_of_large_exponent :
    let t : Expr Float := pow (var "x") (neg (number 3000000000))
    let r : Expr Float := pow (var "x") (number (-3000000000))
    Scalar.toInt? (-3000000000 : Float) = some (-3000000000) ∧ t.rationalize .standard = .ok r ∧
      ¬r.RationalForm (Config.standard : Config Float).maxExpandPower := by
  intro t r
  subst t r
  refine ⟨by decide +kernel, by decide +kernel, ?_⟩
  rintro (h | ⟨n, d, hr, _⟩)
  · cases h with
    | sum ho   => rcases ho with ho | ho <;> cases ho
    | pow _ hx => exact hx.nonneg (by decide +kernel)
  · cases hr

end Expr

end InfixAlgebra
