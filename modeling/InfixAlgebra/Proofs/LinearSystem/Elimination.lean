import Mathlib
import InfixAlgebra.Proofs.LinearSystem.Entries

namespace InfixAlgebra

namespace Factorization

variable {K : Type} [Field K] {n : ℕ} {M : Fin n → Fin n → K} {k p i j t : Fin n}

-- The triangular factors that share the matrix `M`.

def unitLower (M : Fin n → Fin n → K) (i t : Fin n) : K :=
  if t < i then M i t else if t = i then 1 else 0

def upper (M : Fin n → Fin n → K) (t j : Fin n) : K :=
  if j < t then 0 else M t j

-- The factors when the first `k` columns have been cleared. The rest of the lower one is still that
-- of the unit matrix, and the upper one is still full there.

def lowerUntil (k : ℕ) (M : Fin n → Fin n → K) (i t : Fin n) : K :=
  if t < k then unitLower M i t else if t = i then 1 else 0

def upperUntil (k : ℕ) (M : Fin n → Fin n → K) (t j : Fin n) : K :=
  if j < k then upper M t j else M t j

theorem lowerUntil_of_le {c : ℕ} (h : c ≤ t) : lowerUntil c M i t = if t = i then 1 else 0 :=
  if_neg (Nat.not_lt.mpr h)

theorem upperUntil_of_le {c : ℕ} (h : c ≤ j) : upperUntil c M t j = M t j :=
  if_neg (Nat.not_lt.mpr h)

theorem lowerUntil_all : lowerUntil n M = unitLower M :=
  funext₂ fun _ t => if_pos t.isLt

theorem upperUntil_all : upperUntil n M = upper M :=
  funext₂ fun _ j => if_pos j.isLt

def multiple (M : Fin n → Fin n → K) (k i : Fin n) : K :=
  if k < i then M i k / M k k else 0

-- How clearing a column changes the factors, by where an entry lies in respect to that column and
-- to the diagonal.

theorem lowerUntil_cleared (M : Fin n → Fin n → K) (k i t : Fin n) :
    lowerUntil (k + 1) (cleared M k) i t =
      lowerUntil k M i t + if t = k then multiple M k i else 0 := by
  simp only [lowerUntil, unitLower, cleared, multiple]
  grind

theorem upperUntil_cleared (hk : M k k ≠ 0) (t j : Fin n) :
    upperUntil (k + 1) (cleared M k) t j =
      upperUntil k M t j - multiple M k t * upperUntil k M k j := by
  simp only [upperUntil, upper, cleared, multiple]
  grind

theorem lowerUntil_mul_multiple (M : Fin n → Fin n → K) (k i t : Fin n) :
    lowerUntil k M i t * multiple M k t = if t = i then multiple M k i else 0 := by
  simp only [lowerUntil, unitLower, multiple]
  grind

-- What a row loses in the upper factor it gets back through the lower one.
theorem sum_cleared (hk : M k k ≠ 0) (i j : Fin n) :
    ∑ t, lowerUntil (k + 1) (cleared M k) i t * upperUntil (k + 1) (cleared M k) t j =
      ∑ t, lowerUntil k M i t * upperUntil k M t j := by
  let u := upperUntil k M k j
  let single (s t : Fin n) : K := if t = s then multiple M k i else 0
  have hself : multiple M k k = 0 := if_neg (lt_irrefl k)
  have hterm (t : Fin n) :
      lowerUntil (k + 1) (cleared M k) i t * upperUntil (k + 1) (cleared M k) t j =
        lowerUntil k M i t * upperUntil k M t j + (single k t * u - single i t * u) := by
    have hlost : lowerUntil k M i t * multiple M k t = single i t :=
      lowerUntil_mul_multiple M k i t
    have hgained : single k t * (upperUntil k M t j - multiple M k t * u) = single k t * u := by
      simp only [single]
      split
      case isTrue ht  => rw [ht, hself, zero_mul, sub_zero]
      case isFalse ht => rw [zero_mul, zero_mul]
    rw [lowerUntil_cleared, upperUntil_cleared hk]
    linear_combination hgained - u * hlost
  have hsingle (s : Fin n) : ∑ t, single s t = multiple M k i :=
    (Finset.sum_ite_eq' ..).trans (if_pos (Finset.mem_univ s))
  simp only [hterm, Finset.sum_add_distrib, Finset.sum_sub_distrib, ← Finset.sum_mul, hsingle,
    sub_self, add_zero]

-- Rows that have not been cleared can be swapped together with what is stored in them.

theorem lowerUntil_swap (hkp : k ≤ p) (i t : Fin n) :
    lowerUntil k (fun i j => M (Equiv.swap k p i) j) i t =
      lowerUntil k M (Equiv.swap k p i) (Equiv.swap k p t) := by
  simp only [lowerUntil, unitLower, Equiv.swap_apply_def]
  grind

theorem upperUntil_swap (hkp : k ≤ p) (t j : Fin n) :
    upperUntil k (fun i j => M (Equiv.swap k p i) j) t j =
      upperUntil k M (Equiv.swap k p t) j := by
  simp only [upperUntil, upper, Equiv.swap_apply_def]
  grind

theorem sum_swap (hkp : k ≤ p) (i j : Fin n) :
    ∑ t, lowerUntil k (fun i j => M (Equiv.swap k p i) j) i t *
        upperUntil k (fun i j => M (Equiv.swap k p i) j) t j =
      ∑ t, lowerUntil k M (Equiv.swap k p i) t * upperUntil k M t j := by
  simp only [lowerUntil_swap hkp, upperUntil_swap hkp]
  exact Equiv.sum_comp (Equiv.swap k p) fun t =>
    lowerUntil k M (Equiv.swap k p i) t * upperUntil k M t j

end Factorization

end InfixAlgebra
