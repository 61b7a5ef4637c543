import InfixAlgebra.Proofs.Exact.Arithmetic
import InfixAlgebra.Proofs.Exact.Canonical
import InfixAlgebra.Proofs.Fraction.Steps

namespace InfixAlgebra

variable {K : Type} [Field K] [LinearOrder K] {I : Interpretation K} {values : String → Exact I}

open Exact

-- What counts as an integer is one.
def Interpretation.Integral (I : Interpretation K) : Prop :=
  ∀ {x : K} {k : ℤ}, I.toInt? x = some k → x = k

namespace Interpretation.Lawful

variable {u w : K}

-- Powers with integers are what they are in the field, wherever they are defined.

omit [LinearOrder K] in
theorem pow_natCast (hI : I.Lawful) (u : K) (n : ℕ) : I.pow u n = some (u ^ n) := by
  induction n with
  | zero      => simpa using hI.pow_zero u
  | succ n ih =>
    rw [Nat.cast_succ, pow_succ]
    exact hI.pow_add ih (hI.pow_one u)

omit [LinearOrder K] in
theorem mul_pow_of_pow_neg (hI : I.Lawful) {n : ℕ} (h : I.pow u (-n) = some w) : w * u ^ n = 1 := by
  have hsum := hI.pow_add h (hI.pow_natCast u n)
  rw [neg_add_cancel, hI.pow_zero] at hsum
  exact (Option.some.inj hsum).symm

end Interpretation.Lawful

namespace Expr

variable {t a b : Expr (Exact I)} {u : K}

theorem denote_times (a b : Expr (Exact I)) :
    (times a b).denote values = a.denote values * b.denote values := by
  unfold times
  split
  case isTrue ha => rw [eq_of_isNumber ha]; exact (one_mul _).symm
  case isFalse =>
    split
    case isTrue hb => rw [eq_of_isNumber hb]; exact (mul_one _).symm
    case isFalse   => rfl

theorem denote_raised (hI : I.Lawful) (n : ℕ) (ha : a.denote values = some u) :
    (raised a n).denote values = some (u ^ n) := by
  unfold raised
  split
  case isTrue h =>
    cases Bool.or_eq_true_iff.mp h with
    | inl hn => rw [ha, of_decide_eq_true hn, pow_one]
    | inr hone =>
      rw [eq_of_isNumber hone] at ha ⊢
      cases ha
      rw [one_pow]
      rfl
  case isFalse =>
    split
    case isTrue hn => rw [hn, pow_zero]; rfl
    case isFalse =>
      have hpow : (Expr.pow a (.number (Scalar.ofNat n))).denote values =
          Scalar.pow (a.denote values) (some (n : K)) := rfl
      rw [hpow, ha]
      exact hI.pow_natCast u n

theorem denote_of_integerExponent? (hint : I.Integral) {k : ℤ} (h : b.integerExponent? = some k) :
    b.denote values = some (k : K) := by
  have hvalue {x : Exact I}
      (h : (Scalar.toInt? x).bind (fun m => if m.natAbs < Nat.pow 2 31 then some m else none) =
        some k) : x = some (k : K) := by
    have ⟨m, hm, hk⟩ := Option.bind_eq_some_iff.mp h
    have ⟨a, ha, ham⟩ := Option.bind_eq_some_iff.mp hm
    rw [ha, hint ham, Option.some.inj (Option.ite_none_right_eq_some.mp hk).2]
  unfold integerExponent? at h
  split at h
  case h_1 x => exact hvalue h
  case h_2 x => exact hvalue h
  case h_3   => cases h

end Expr

end InfixAlgebra
