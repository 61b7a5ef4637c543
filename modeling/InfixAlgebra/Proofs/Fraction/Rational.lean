import InfixAlgebra.Proofs.Exact.Rational
import InfixAlgebra.Proofs.Fraction.Reduction

namespace InfixAlgebra

open Exact

namespace Interpretation

-- The rational numbers with powers by integers, with any numbers for the constants and any
-- functions.
def total (constant : Constant → ℚ) (elementary : Elementary → ℚ → ℚ) : Interpretation ℚ where
  __ := rational
  constant := constant
  elementary f x := some (elementary f x)

variable {constant : Constant → ℚ} {elementary : Elementary → ℚ → ℚ}

theorem lawful_total : (total constant elementary).Lawful where
  pow_zero := lawful_rational.pow_zero
  pow_one  := lawful_rational.pow_one
  one_pow  := lawful_rational.one_pow
  pow_add  := lawful_rational.pow_add

theorem integral_rational : rational.Integral := by
  intro x k h
  have ⟨hden, hnum⟩ := Option.ite_none_right_eq_some.mp h
  rw [← Option.some.inj hnum]
  exact ((Rat.den_eq_one_iff x).mp hden).symm

theorem integral_total : (total constant elementary).Integral :=
  integral_rational

end Interpretation

instance {constant : Constant → ℚ} {elementary : Elementary → ℚ → ℚ} :
    NumberText (Exact (.total constant elementary)) :=
  inferInstanceAs (NumberText (Exact .rational))

namespace Expr

section Regular

variable {I : Interpretation ℚ}

inductive Literal : ℤ → Expr (Exact I) → Prop
  | number (k : ℤ) : Literal k (.number (some (k : ℚ)))
  | neg (k : ℤ) : Literal (-k) (.neg (.number (some (k : ℚ))))

-- Expressions with literal integers for exponents in which no divisor and no base of a negative
-- power is zero where the variables stand for `values`.
inductive Regular (values : String → Exact I) : Expr (Exact I) → Prop
  | number (q : ℚ) : Regular values (.number (some q))
  | constant (c : Constant) : Regular values (.constant c)
  | var {name : String} {q : ℚ} : values name = some q → Regular values (.var name)
  | neg {a : Expr (Exact I)} : Regular values a → Regular values (.neg a)
  | add {a b : Expr (Exact I)} : Regular values a → Regular values b → Regular values (.add a b)
  | sub {a b : Expr (Exact I)} : Regular values a → Regular values b → Regular values (.sub a b)
  | mul {a b : Expr (Exact I)} : Regular values a → Regular values b → Regular values (.mul a b)
  | div {a b : Expr (Exact I)} : Regular values a → Regular values b → b.denote values ≠ some 0 →
    Regular values (.div a b)
  | pow {a b : Expr (Exact I)} {k : ℤ} : Regular values a → Literal k b →
    (k < 0 → a.denote values ≠ some 0) → Regular values (.pow a b)
  | call {f : Elementary} {a : Expr (Exact I)} : Regular values a → Regular values (.call f [a])

theorem Literal.denote_eq {values : String → Exact I} {k : ℤ} {b : Expr (Exact I)}
    (h : Literal k b) : b.denote values = some (k : ℚ) := by
  cases h with
  | number k => rfl
  | neg k    => rw [Int.cast_neg]; rfl

end Regular

variable {constant : Constant → ℚ} {elementary : Elementary → ℚ → ℚ}
  {values : String → Exact (.total constant elementary)}
  {t r : Expr (Exact (.total constant elementary))}

theorem Regular.exists_denote (h : t.Regular values) : ∃ q : ℚ, t.denote values = some q := by
  induction h with
  | number q   => exact ⟨q, rfl⟩
  | constant c => exact ⟨_, rfl⟩
  | var hq     => exact ⟨_, hq⟩
  | neg _ ih =>
    have ⟨q, hq⟩ := ih
    exact ⟨-q, neg_eq_some_iff.mpr ⟨q, hq, rfl⟩⟩
  | add _ _ iha ihb =>
    have ⟨p, hp⟩ := iha
    have ⟨q, hq⟩ := ihb
    exact ⟨p + q, add_eq_some_iff.mpr ⟨p, q, hp, hq, rfl⟩⟩
  | sub _ _ iha ihb =>
    have ⟨p, hp⟩ := iha
    have ⟨q, hq⟩ := ihb
    exact ⟨p - q, sub_eq_some_iff.mpr ⟨p, q, hp, hq, rfl⟩⟩
  | mul _ _ iha ihb =>
    have ⟨p, hp⟩ := iha
    have ⟨q, hq⟩ := ihb
    exact ⟨p * q, mul_eq_some_iff.mpr ⟨p, q, hp, hq, rfl⟩⟩
  | div _ _ hne iha ihb =>
    have ⟨p, hp⟩ := iha
    have ⟨q, hq⟩ := ihb
    have hq₀ : q ≠ 0 := fun h => hne (h ▸ hq)
    exact ⟨p / q, div_eq_some_iff.mpr ⟨p, q, hp, hq, hq₀, rfl⟩⟩
  | @pow a b k _ hk hne ih =>
    have ⟨p, hp⟩ := ih
    have hsign : p = 0 → 0 ≤ (k : ℚ).num := by
      intro h
      rw [Rat.num_intCast]
      exact Int.not_lt.mp fun hlt => hne hlt (h ▸ hp)
    refine ⟨p ^ (k : ℚ).num, lift_eq_some_iff.mpr ⟨p, k, hp, hk.denote_eq, ?_⟩⟩
    exact Interpretation.pow_rational_iff.mpr ⟨.inr ⟨Rat.den_intCast k, hsign⟩, rfl⟩
  | @call f a _ ih =>
    have ⟨p, hp⟩ := ih
    exact ⟨elementary f p, congrArg (Scalar.elementary f) hp⟩

-- Where nothing is divided by zero, an expression and its rationalized form are defined, and stand
-- for the same.
theorem denote_rationalize [NumberText (Exact (.total constant elementary))]
    {config : Config (Exact (.total constant elementary))} (ht : t.Regular values)
    (h : t.rationalize config = .ok r) :
    ∃ q : ℚ, t.denote values = some q ∧ r.denote values = some q := by
  have ⟨q, hq⟩ := ht.exists_denote
  have hr : Preserves values t r :=
    preserves_rationalize Interpretation.lawful_total Interpretation.integral_total h
  exact ⟨q, hq, hr q hq⟩

section Example

local instance : DecidableEq (Exact (.total constant elementary)) :=
  inferInstanceAs (DecidableEq (Option ℚ))

-- The divisor is a negative power, of a call with a quotient inside of it.
theorem denote_rationalize_of_inverse_square :
    let functions (_ : Elementary) (q : ℚ) : ℚ := q + 1
    let x : Expr (Exact (.total (fun _ => 3) functions)) := .var "x"
    let n (q : ℚ) : Expr (Exact (.total (fun _ => 3) functions)) := .number (some q)
    let s := call .sin [div (n 1) x]
    let t := div x (pow s (.neg (n 2)))
    let r := mul (pow s (n 2)) x
    t.Regular (fun _ => some 2) ∧ t.rationalize .standard = .ok r ∧
      ∃ q : ℚ, t.denote (fun _ => some 2) = some q ∧ r.denote (fun _ => some 2) = some q := by
  intro functions x n s t r
  have hx : x.Regular (fun _ => some 2) := .var rfl
  have hinner : x.denote (fun _ => some 2) ≠ some 0 :=
    fun h => two_ne_zero (Option.some.inj h)
  have hbase : s.denote (fun _ => some 2) ≠ some 0 := by
    have h : s.denote (fun _ => some 2) = some (3 / 2 : ℚ) := by with_unfolding_all rfl
    rw [h]
    exact fun h => absurd (Option.some.inj h) (by norm_num)
  have hdivisor : (pow s (.neg (n 2))).denote (fun _ => some 2) ≠ some 0 := by
    have h : (pow s (.neg (n 2))).denote (fun _ => some 2) = some (4 / 9 : ℚ) := by
      with_unfolding_all rfl
    rw [h]
    exact fun h => absurd (Option.some.inj h) (by norm_num)
  have ht : t.Regular (fun _ => some 2) :=
    .div hx (.pow (.call (.div (.number 1) hx hinner)) (.neg 2) fun _ => hbase) hdivisor
  have h : t.rationalize .standard = .ok r := by
    subst r t s n x functions
    decide +kernel
  exact ⟨ht, h, denote_rationalize ht h⟩

end Example

end Expr

end InfixAlgebra
