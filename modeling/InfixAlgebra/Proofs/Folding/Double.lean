import InfixAlgebra.Proofs.Double.Alike
import InfixAlgebra.Proofs.Folding.Numeric

namespace InfixAlgebra

namespace Double

-- Powers and elementary functions are not part of the arithmetic of double precision. A library has
-- them.
structure Library where
  pow : Float → Float → Float
  elementary : Elementary → Float → Float

namespace Library

def standard : Library where
  pow        := Float.pow
  elementary := Double.elementary

structure Lawful (lib : Library) : Prop where
  pow_zero (x : Float) : lib.pow x 0 = 1
  pow_one (x : Float) : lib.pow x 1 = x
  one_pow (x : Float) : lib.pow 1 x = 1
  pow_beq_pow {x x' y y' : Float} : (lib.pow x y).isFinite → x == x' → y == y' →
    lib.pow x y == lib.pow x' y'
  elementary_beq_elementary (f : Elementary) {x x' : Float} : (lib.elementary f x).isFinite →
    x == x' → lib.elementary f x == lib.elementary f x'

-- Powers up to the square, square roots, and the other functions at the one place where they have a
-- simple value.
def sparse : Library where
  pow x y :=
    if y == 0 || x == 1 then 1
    else if y == 1 then x
    else if y == 2 then x * x
    else 0 / 0
  elementary
    | .sqrt, x => x.sqrt
    | .log, x  => if x == 1 then 0 else 0 / 0
    | .cos, x  => if x == 0 then 1 else 0 / 0
    | _, x     => if x == 0 then x else 0 / 0

theorem lawful_sparse : sparse.Lawful where
  pow_zero x := rfl
  pow_one x := by
    change (if x == 1 then (1 : Float) else x) = x
    split
    case isTrue hx => exact (eq_of_beq hx unpacked_one).symm
    case isFalse   => rfl
  one_pow x := if_pos (Bool.or_eq_true_iff.mpr (.inr rfl))
  pow_beq_pow {x x' y y'} hfinite hx hy := by
    simp only [sparse, beq_congr hx, beq_congr hy] at hfinite ⊢
    split_ifs at hfinite ⊢
    · rfl
    · exact hx
    · exact mul_beq_mul hfinite hx hx
    · cases hfinite
  elementary_beq_elementary f x x' hfinite hx := by
    cases f <;> simp only [sparse, beq_congr hx] at hfinite ⊢
    case sqrt => exact sqrt_beq_sqrt hfinite hx
    all_goals
      split_ifs at hfinite ⊢ <;> first | rfl | exact hx | cases hfinite

end Library

def Over (_ : Library) : Type :=
  Float

variable {lib : Library}

instance : Scalar (Over lib) where
  __         := (inferInstance : Scalar Float)
  pow        := lib.pow
  elementary := lib.elementary

instance : NumberText (Over lib) :=
  (inferInstance : NumberText Float)

instance : Scalar.Regular (Over lib) where
  one_mul_eq       := one_mul_eq
  neg_one_mul_neg  := neg_one_mul_neg
  beq_comm         := beq_comm
  eq_one h         := eq_of_beq h unpacked_one
  eq_neg_one h     := eq_of_beq h unpacked_neg_one
  one_beq_one      := (Scalar.Regular.one_beq_one : (1 : Float) == 1)
  not_one_beq_zero := (Scalar.Regular.not_one_beq_zero : ¬(1 : Float) == 0)
  not_one_lt_zero  := (Scalar.Regular.not_one_lt_zero : ¬Scalar.lt (1 : Float) 0)
  not_neg_beq_zero := not_neg_beq_zero

theorem Library.Lawful.congruent (h : lib.Lawful) : Scalar.Congruent (Over lib) where
  neg_one_mul_eq := neg_one_mul_eq
  add_neg x y := (sub_eq_add_neg x y).symm
  pow_zero := h.pow_zero
  pow_one := h.pow_one
  one_pow := h.one_pow
  beq_self := beq_self
  beq_trans := beq_trans
  isFinite_of_beq := isFinite_of_beq
  neg_beq_neg := neg_beq_neg
  apply_beq_apply op _ _ _ _ hfinite hx hy := by
    cases op with
    | add => exact add_beq_add hfinite hx hy
    | sub => exact sub_beq_sub hfinite hx hy
    | mul => exact mul_beq_mul hfinite hx hy
    | div => exact div_beq_div hfinite hx hy
    | pow => exact h.pow_beq_pow hfinite hx hy
  elementary_beq_elementary := h.elementary_beq_elementary

end Double

namespace Expr

open Double

-- Folding the numbers of an expression gives what evaluating it does, but for the sign of a zero:
-- where all values are finite, the canonical form is the number that the expression evaluates to.
theorem canonical_eq_number_of_evaluates {lib : Library} (hlib : lib.Lawful)
    {config : Config (Over lib)} {t r : Expr (Over lib)} (ht : t.Numeric)
    (hfinite : ∀ v ∈ t.nodesAt 1, ∃ x, v.2.Evaluates x ∧ Scalar.isFinite x)
    (h : t.canonical config = .ok r) : ∃ n v, r = .number n ∧ t.Evaluates v ∧ n == v :=
  have := hlib.congruent
  ht.exists_evaluates hfinite h

-- So does the arithmetic that the program runs on, if its library keeps the laws.
theorem Numeric.exists_evaluates_standard (hlib : Library.standard.Lawful) {config : Config Float}
    {t r : Expr Float} (ht : t.Numeric)
    (hfinite : ∀ v ∈ t.nodesAt 1, ∃ x, v.2.Evaluates x ∧ Scalar.isFinite x)
    (h : t.canonical config = .ok r) : ∃ n v, r = .number n ∧ t.Evaluates v ∧ n == v :=
  have : Scalar.Congruent Float := hlib.congruent
  ht.exists_evaluates hfinite h

section Example

local instance : DecidableEq (Over Library.sparse) :=
  inferInstanceAs (DecidableEq Float)

-- The difference of a square and a root is zero, and so is what it is multiplied by a negative
-- number. Folding drops the sign of it.
theorem canonical_eq_number_of_evaluates_of_negative_zero :
    let n (x : Float) : Expr (Over Library.sparse) := .number x
    let t := mul (sub (pow (n 3) (n 2)) (.call .sqrt [n 81])) (neg (n 1))
    Library.sparse.Lawful ∧ t.Numeric ∧
      (∀ v ∈ t.nodesAt 1, ∃ x, v.2.Evaluates x ∧ Scalar.isFinite x) ∧
      t.canonical .standard = .ok (.number 0) ∧
      (∃ n v, Expr.number (0 : Over Library.sparse) = .number n ∧ t.Evaluates v ∧ n == v) ∧
      t.Evaluates (-0) := by
  intro n t
  have hn (x : Float) : (n x).Numeric := .number x
  have ht : t.Numeric :=
    .binary .mul (.binary .sub (.binary .pow (hn 3) (hn 2)) (.call .sqrt (hn 81))) (.neg (hn 1))
  have hfinite : ∀ v ∈ t.nodesAt 1, ∃ x, v.2.Evaluates x ∧ Scalar.isFinite x := by
    have hvalues : ∀ v ∈ t.nodesAt 1, Scalar.isFinite v.2.value := by
      subst t n
      decide +kernel
    exact fun v hv => ⟨v.2.value, (ht.of_mem_nodesAt v hv).evaluates, hvalues v hv⟩
  have h : t.canonical .standard = .ok (.number 0) := by
    subst t n
    decide +kernel
  have hzero : t.value = -0 := by
    subst t n
    decide +kernel
  exact ⟨Library.lawful_sparse, ht, hfinite, h,
    canonical_eq_number_of_evaluates Library.lawful_sparse ht hfinite h, hzero ▸ ht.evaluates⟩

end Example

end Expr

end InfixAlgebra
