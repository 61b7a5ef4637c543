import InfixAlgebra.Proofs.Fraction.Expansion
import InfixAlgebra.Proofs.Fraction.Splitting

namespace InfixAlgebra

open Metered Exact

variable {K : Type} [Field K] [LinearOrder K] {I : Interpretation K} {values : String → Exact I}

namespace Exact

variable {x y z w : Exact I}

theorem refines_div_add : Refines ((x + y) / z) (x / z + y / z) := by
  intro k hk
  obtain ⟨s, c, hs, rfl, hc, rfl⟩ := div_eq_some_iff.mp hk
  obtain ⟨a, b, rfl, rfl, rfl⟩ := add_eq_some_iff.mp hs
  exact add_eq_some_iff.mpr ⟨a / c, b / c, div_eq_some_iff.mpr ⟨a, c, rfl, rfl, hc, rfl⟩,
    div_eq_some_iff.mpr ⟨b, c, rfl, rfl, hc, rfl⟩, (add_div a b c).symm⟩

theorem refines_sum_div (xs : List (Exact I)) (z : Exact I) :
    Refines (xs.sum / z) (xs.map (· / z)).sum := by
  induction xs with
  | nil          => exact refines_zero_div z
  | cons x xs ih =>
    rw [List.sum_cons, List.map_cons, List.sum_cons]
    exact refines_div_add.trans ((Refines.refl _).add ih)

-- A divisor goes to the number in front.
theorem refines_mul_mul_div : Refines (x * (y * z) / w) (x * (y / w * z)) := by
  intro k hk
  obtain ⟨p, d, hp, rfl, hd, rfl⟩ := div_eq_some_iff.mp hk
  obtain ⟨a, q, rfl, hq, rfl⟩ := mul_eq_some_iff.mp hp
  obtain ⟨b, c, rfl, rfl, rfl⟩ := mul_eq_some_iff.mp hq
  refine mul_eq_some_iff.mpr ⟨a, b / d * c, rfl, mul_eq_some_iff.mpr ⟨b / d, c, ?_, rfl, rfl⟩, ?_⟩
  · exact div_eq_some_iff.mpr ⟨b, d, rfl, rfl, hd, rfl⟩
  · rw [mul_div_assoc, div_mul_eq_mul_div]

end Exact

namespace Expr

variable {t r : Expr (Exact I)}

-- The number that leads a product times the rest is the product.
theorem mul_denote_leading (t : Expr (Exact I)) :
    t.leading.1 * t.leading.2.denote values = t.denote values := by
  induction t with
  | number x => exact mul_one x
  | neg a ih => 
    rw [leading, Exact.neg_mul, ih]
    rfl
  | binary op a b iha ihb =>
    cases op with
    | mul =>
      rw [leading, denote_times, ← mul_assoc, iha]
      rfl
    | _ => exact one_mul _
  | _ => exact one_mul _

theorem refines_divideCoefficients? {x : Exact I} {addends : List (Exact I × Expr (Exact I))}
    (h : t.divideCoefficients? x = some addends) :
    Refines (t.denote values / x) (denoteAddends values addends) := by
  unfold divideCoefficients? at h
  dsimp only at h
  split at h
  case isFalse => cases h
  case isTrue =>
    cases h
    have hsum : t.denote values = denoteSigned values (t.addends true) := by
      rw [denoteSigned_addends]
      exact (one_mul _).symm
    rw [hsum, denoteSigned, denoteAddends, List.map_map, List.map_map]
    refine (refines_sum_div _ x).trans (Refines.sum ?_)
    rw [List.map_map]
    refine List.forall₂_map_left_iff.mpr (List.forall₂_map_right_iff.mpr ?_)
    refine List.forall₂_same.mpr ?_
    rintro ⟨p, s⟩ _
    have hterm : Refines (sign p * (s.leading.1 * s.leading.2.denote values) / x)
        (sign p * (s.leading.1 / x * s.leading.2.denote values)) := refines_mul_mul_div
    rw [mul_denote_leading] at hterm
    exact hterm

theorem refines_of_reducesTo {f : Fraction (Exact I)} (h : ReducesTo (PreservesSum values) f r) :
    Refines (f.denote values) (r.denote values) := by
  cases h with
  | divided hx _ _ _ ha hr =>
    rw [Fraction.denote, hx]
    exact (refines_divideCoefficients? ha).trans hr
  | quotient => exact preserves_quotient _ _

variable [NumberText (Exact I)]

-- Rationalization preserves what an expression stands for, wherever this is defined.
theorem preserves_rationalize (hI : I.Lawful) (hint : I.Integral) {config : Config (Exact I)}
    (h : t.rationalize config = .ok r) : Preserves values t r := by
  have ⟨f, n, d, hf, hn, hd, hr⟩ := exists_of_rationalize h
  have hsplit : Refines (t.denote values) (f.denote values) :=
    fractionAt_induct (fun _ _ => refines_of_splitsTo hI hint) hf
  have hparts : Refines (f.denote values) (Fraction.denote values ⟨n, d⟩) :=
    (preserves_of_gives_expandAt hI hint hn).div (preserves_of_gives_expandAt hI hint hd)
  have hreduce : Refines (Fraction.denote values ⟨n, d⟩) (r.denote values) :=
    refines_of_reducesTo (reducesTo_of_gives (fun _ _ => preservesSum_of_gives_sum hI) hr)
  exact (hsplit.trans hparts).trans hreduce

end Expr

end InfixAlgebra
