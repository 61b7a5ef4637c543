import InfixAlgebra.Proofs.Fraction.Powers

namespace InfixAlgebra

variable {K : Type} [Field K] [LinearOrder K] {I : Interpretation K} {values : String → Exact I}

namespace Exact

variable {x y z w : Exact I}

-- Arithmetic of quotients, wherever these are defined.

theorem refines_self_div_one : Refines x (x / 1) :=
  fun k hk => div_eq_some_iff.mpr ⟨k, 1, hk, rfl, one_ne_zero, div_one k⟩

theorem refines_neg_div : Refines (-(x / y)) (-x / y) := by
  intro k hk
  obtain ⟨q, hq, rfl⟩ := neg_eq_some_iff.mp hk
  obtain ⟨a, b, rfl, rfl, hb, rfl⟩ := div_eq_some_iff.mp hq
  exact div_eq_some_iff.mpr ⟨-a, b, rfl, rfl, hb, neg_div b a⟩

theorem refines_add_div : Refines (x / z + y / z) ((x + y) / z) := by
  intro k hk
  obtain ⟨p, q, hp, hq, rfl⟩ := add_eq_some_iff.mp hk
  obtain ⟨a, c, rfl, rfl, hc, rfl⟩ := div_eq_some_iff.mp hp
  obtain ⟨b, _, rfl, hc', _, rfl⟩ := div_eq_some_iff.mp hq
  cases hc'
  exact div_eq_some_iff.mpr ⟨a + b, c, rfl, rfl, hc, add_div a b c⟩

theorem refines_div_add_div : Refines (x / z + y / w) ((x * w + y * z) / (z * w)) := by
  intro k hk
  obtain ⟨p, q, hp, hq, rfl⟩ := add_eq_some_iff.mp hk
  obtain ⟨a, c, rfl, rfl, hc, rfl⟩ := div_eq_some_iff.mp hp
  obtain ⟨b, d, rfl, rfl, hd, rfl⟩ := div_eq_some_iff.mp hq
  refine div_eq_some_iff.mpr ⟨a * d + b * c, c * d, rfl, rfl, mul_ne_zero hc hd, ?_⟩
  rw [mul_comm b c]
  exact (div_add_div a b hc hd).symm

theorem refines_div_mul_div : Refines (x / z * (y / w)) (x * y / (z * w)) := by
  intro k hk
  obtain ⟨p, q, hp, hq, rfl⟩ := mul_eq_some_iff.mp hk
  obtain ⟨a, c, rfl, rfl, hc, rfl⟩ := div_eq_some_iff.mp hp
  obtain ⟨b, d, rfl, rfl, hd, rfl⟩ := div_eq_some_iff.mp hq
  exact div_eq_some_iff.mpr
    ⟨a * b, c * d, rfl, rfl, mul_ne_zero hc hd, (div_mul_div_comm a c b d).symm⟩

theorem refines_div_div_div : Refines (x / z / (y / w)) (x * w / (z * y)) := by
  intro k hk
  obtain ⟨p, q, hp, hq, hne, rfl⟩ := div_eq_some_iff.mp hk
  obtain ⟨a, c, rfl, rfl, hc, rfl⟩ := div_eq_some_iff.mp hp
  obtain ⟨b, d, rfl, rfl, hd, rfl⟩ := div_eq_some_iff.mp hq
  have hb : b ≠ 0 := fun h => hne (by rw [h, zero_div])
  exact div_eq_some_iff.mpr
    ⟨a * d, c * b, rfl, rfl, mul_ne_zero hc hb, (div_div_div_eq a c b d).symm⟩

theorem refines_sub_div : Refines (x / z - y / z) ((x - y) / z) := by
  rw [Exact.sub_eq_add_neg, Exact.sub_eq_add_neg]
  exact ((Refines.refl _).add refines_neg_div).trans refines_add_div

theorem refines_div_sub_div : Refines (x / z - y / w) ((x * w - y * z) / (z * w)) := by
  rw [Exact.sub_eq_add_neg, Exact.sub_eq_add_neg, ← Exact.neg_mul]
  exact ((Refines.refl _).add refines_neg_div).trans refines_div_add_div

end Exact

open Exact

namespace Fraction

def denote (values : String → Exact I) (f : Fraction (Exact I)) : Exact I :=
  f.numerator.denote values / f.denominator.denote values

end Fraction

namespace Expr

variable {t : Expr (Exact I)} {f g : Fraction (Exact I)} {op : Operator}

theorem refines_cross (ho : op = .add ∨ op = .sub) :
    Refines (op.apply (f.denote values) (g.denote values))
      ((fractionAt.cross op f g).denote values) := by
  unfold fractionAt.cross
  split
  case isTrue h =>
    have hd : g.denote values = g.numerator.denote values / f.denominator.denote values := by
      rw [eq_of_beq h]
      rfl
    rw [hd]
    rcases ho with rfl | rfl
    · exact refines_add_div
    · exact refines_sub_div
  case isFalse =>
    rw [Fraction.denote, Fraction.denote, Fraction.denote, denote, denote_times, denote_times,
      denote_times]
    rcases ho with rfl | rfl
    · exact refines_div_add_div
    · exact refines_div_sub_div

theorem refines_pow (hI : I.Lawful) {a b : Expr (Exact I)} {n : ℕ}
    (hb : b.denote values = some (n : K)) (hf : Refines (a.denote values) (f.denote values)) :
    Refines ((Expr.pow a b).denote values)
      (Fraction.denote values ⟨raised f.numerator n, raised f.denominator n⟩) := by
  intro v hv
  obtain ⟨u, e, ha, he, hv⟩ := lift_eq_some_iff.mp hv
  cases hb.symm.trans he
  cases (hI.pow_natCast u n).symm.trans hv
  obtain ⟨p, q, hp, hq, hne, rfl⟩ := div_eq_some_iff.mp (hf u ha)
  exact div_eq_some_iff.mpr ⟨p ^ n, q ^ n, denote_raised hI n hp, denote_raised hI n hq,
    pow_ne_zero n hne, (div_pow p q n).symm⟩

-- Where a power with a negative exponent is defined, its base is not zero.
theorem refines_inverse_pow (hI : I.Lawful) {a b : Expr (Exact I)} {n : ℕ}
    (hb : b.denote values = some (-(n : K)))
    (hf : Refines (a.denote values) (f.denote values)) :
    Refines ((Expr.pow a b).denote values)
      (Fraction.denote values ⟨raised f.denominator n, raised f.numerator n⟩) := by
  intro v hv
  obtain ⟨u, e, ha, he, hv⟩ := lift_eq_some_iff.mp hv
  cases hb.symm.trans he
  have hmul := hI.mul_pow_of_pow_neg hv
  obtain ⟨p, q, hp, hq, hne, rfl⟩ := div_eq_some_iff.mp (hf u ha)
  have hpow : (p / q) ^ n ≠ 0 := right_ne_zero_of_mul (hmul ▸ one_ne_zero)
  rw [div_pow] at hmul hpow
  have hpn : p ^ n ≠ 0 := fun h => hpow (by rw [h, zero_div])
  refine div_eq_some_iff.mpr ⟨q ^ n, p ^ n, denote_raised hI n hq, denote_raised hI n hp, hpn, ?_⟩
  rw [eq_div_of_mul_eq hpow hmul, one_div_div]

theorem refines_of_splitsTo (hI : I.Lawful) (hint : I.Integral)
    (h : SplitsTo (fun t f => Refines (t.denote values) (f.denote values)) t f) :
    Refines (t.denote values) (f.denote values) := by
  cases h with
  | whole     => exact refines_self_div_one
  | whole_pow => exact refines_self_div_one
  | neg hf => exact (Refines.neg hf).trans refines_neg_div
  | sum ho hf hg => exact (Refines.apply _ hf hg).trans (refines_cross ho)
  | mul hf hg => 
    rw [Fraction.denote, denote_times, denote_times]
    exact (hf.mul hg).trans refines_div_mul_div
  | div hf hg => 
    rw [Fraction.denote, denote_times, denote_times]
    exact (hf.div hg).trans refines_div_div_div
  | @pow a b f k hk hle hf =>
    refine refines_pow hI ?_ hf
    rw [denote_of_integerExponent? hint hk, ← Int.cast_natCast, Int.natAbs_of_nonneg hle]
  | @inverse_pow a b f k hk hlt hf =>
    refine refines_inverse_pow hI ?_ hf
    rw [denote_of_integerExponent? hint hk, ← Int.cast_natCast, Int.ofNat_natAbs_of_nonpos hlt.le,
      Int.cast_neg, neg_neg]

end Expr

end InfixAlgebra
