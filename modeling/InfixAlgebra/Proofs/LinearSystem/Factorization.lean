import Mathlib
import InfixAlgebra.Proofs.Except
import InfixAlgebra.Proofs.LinearSystem.Elimination

namespace InfixAlgebra

namespace Factorization

open Exact

variable {K : Type} {I : Interpretation K} [Field K] [LinearOrder K] {n : ℕ}
  {A M : Fin n → Fin n → K} {σ : Equiv.Perm (Fin n)} {ε : K}
  {f f' : Factorization (Exact I)} {a : Matrix (Exact I)} {k p : Fin n}

-- `f` takes `A` apart as far as its first `k` columns are concerned.
structure FactorsUntil (ε : K) (A : Fin n → Fin n → K) (k : ℕ) (f : Factorization (Exact I))
    (σ : Equiv.Perm (Fin n)) (M : Fin n → Fin n → K) : Prop where
  packed  : f.packed.HasEntries M
  order   : f.order = Array.ofFn fun i => (σ i : ℕ)
  product : ∀ i j, ∑ t, lowerUntil k M i t * upperUntil k M t j = A (σ i) j
  bounded : ∀ i t, |lowerUntil k M i t| ≤ 1
  pivots  : ∀ i : Fin n, i < k → ε ≤ |M i i|

theorem order_swap (σ : Equiv.Perm (Fin n)) (k p : Fin n) :
    (Array.ofFn fun i => (σ i : ℕ)).swapIfInBounds k p =
      Array.ofFn fun i => ((σ * Equiv.swap k p) i : ℕ) := by
  have hsize (i : Fin n) : i < (Array.ofFn fun i => (σ i : ℕ)).size := by
    rw [Array.size_ofFn]
    exact i.isLt
  rw [Array.swapIfInBounds_def, dif_pos (hsize k), dif_pos (hsize p)]
  ext i h₁ h₂
  case h₁ => simp
  case h₂ =>
    simp only [Array.getElem_swap, Array.getElem_ofFn, Equiv.Perm.mul_apply, Equiv.swap_apply_def,
      Fin.ext_iff, apply_ite σ, apply_ite Fin.val, Fin.eta]

theorem le_swap {i : Fin n} (hkp : k ≤ p) (hi : k ≤ i) : k ≤ Equiv.swap k p i := by
  rw [Equiv.swap_apply_def]
  split
  case isTrue  => exact hkp
  case isFalse =>
    split
    case isTrue  => exact le_rfl
    case isFalse => exact hi

namespace FactorsUntil

theorem swap (h : FactorsUntil ε A k f σ M) (hkp : k ≤ p) :
    FactorsUntil ε A k ⟨swapRows f.packed k p, f.order.swapIfInBounds k p⟩ (σ * Equiv.swap k p)
      fun i j => M (Equiv.swap k p i) j where
  packed      := hasEntries_swapRows h.packed k p
  order       := h.order ▸ order_swap σ k p
  product i j := (sum_swap hkp i j).trans (h.product _ j)
  bounded i t := by
    rw [lowerUntil_swap hkp]
    exact h.bounded _ _
  pivots i hi := by
    have hne : i ≠ k := ne_of_lt hi
    have hne' : i ≠ p := ne_of_lt (lt_of_lt_of_le hi hkp)
    rw [Equiv.swap_apply_of_ne_of_ne hne hne']
    exact h.pivots i hi

variable [IsStrictOrderedRing K]

theorem initial (ha : a.HasEntries A) :
    FactorsUntil ε A 0 ⟨a, Array.range n⟩ 1 A where
  packed := ha
  order  := by
    ext i h₁ h₂
    case h₁ => simp
    case h₂ => simp
  product i j := by
    simp only [lowerUntil_of_le (Nat.zero_le _), upperUntil_of_le (Nat.zero_le _), ite_mul,
      one_mul, zero_mul]
    exact (Finset.sum_ite_eq' ..).trans (if_pos (Finset.mem_univ i))
  bounded i t := by
    rw [lowerUntil_of_le (Nat.zero_le _)]
    split
    case isTrue  => exact abs_one.le
    case isFalse => exact abs_zero.trans_le zero_le_one
  pivots i hi := absurd hi (Nat.not_lt_zero _)

theorem clear (h : FactorsUntil ε A k f σ M) (hε : 0 < ε) (hk : ε ≤ |M k k|)
    (hmax : ∀ i ≥ k, |M i k| ≤ |M k k|) :
    FactorsUntil ε A (k + 1) ⟨eliminate f.packed k, f.order⟩ σ (cleared M k) where
  packed      := hasEntries_eliminate h.packed (abs_pos.mp (hε.trans_le hk))
  order       := h.order
  product i j := (sum_cleared (abs_pos.mp (hε.trans_le hk)) i j).trans (h.product i j)
  bounded i t := by
    rw [lowerUntil_cleared]
    by_cases hki : t = k ∧ k < i
    case pos =>
      have ⟨ht, hki⟩ := hki
      have hle := hmax i hki.le
      rw [ht, lowerUntil_of_le le_rfl, if_neg hki.ne, if_pos rfl, zero_add, multiple, if_pos hki,
        abs_div]
      exact div_le_one_of_le₀ hle (abs_nonneg _)
    case neg =>
      have hzero : (if t = k then multiple M k i else 0) = 0 :=
        ite_eq_right_iff.mpr fun ht => if_neg fun hlt => hki ⟨ht, hlt⟩
      rw [hzero, add_zero]
      exact h.bounded i t
  pivots i hi := by
    have hik : i ≤ k := Nat.lt_succ_iff.mp hi
    rw [cleared, if_pos (.inl hik)]
    cases hik.lt_or_eq with
    | inl hlt => exact h.pivots i hlt
    | inr heq => exact heq ▸ hk

-- A column for which there is a pivot is dealt with.
theorem step (h : FactorsUntil ε A k f σ M) (hε : 0 < ε)
    (hf : step (of ε) f k = .ok f') : ∃ σ M, FactorsUntil ε A (k + 1) f' σ M := by
  have ⟨p, hp, hkp, hmax⟩ := exists_pivotRow_eq h.packed k
  unfold Factorization.step at hf
  simp only [hp] at hf
  split at hf
  case isFalse => cases hf
  case isTrue hle =>
    cases hf
    rw [h.packed.entry, abs_of] at hle
    refine ⟨_, _, (h.swap hkp).clear hε ?_ fun i hi => ?_⟩
    · rw [Equiv.swap_apply_left]
      exact le_of_iff.mp hle
    · rw [Equiv.swap_apply_left]
      exact hmax _ (le_swap hkp hi)

end FactorsUntil

theorem exists_factorsUntil [IsStrictOrderedRing K] (ha : a.HasEntries A) (hε : 0 < ε) {k : ℕ}
    (hk : k ≤ n) (hf : (List.range k).foldlM (step (of ε)) ⟨a, Array.range n⟩ = .ok f) :
    ∃ σ M, FactorsUntil ε A k f σ M := by
  induction k generalizing f with
  | zero =>
    cases hf
    exact ⟨_, _, .initial ha⟩
  | succ k ih =>
    rw [List.range_succ, List.foldlM_append] at hf
    have ⟨g, hg, hf⟩ := exists_of_bind_eq_ok hf
    have ⟨_, _, hfactors⟩ := ih (Nat.le_of_succ_le hk) hg
    rw [List.foldlM_cons] at hf
    have ⟨f', hf', hf⟩ := exists_of_bind_eq_ok hf
    cases hf
    exact FactorsUntil.step (k := ⟨k, hk⟩) hfactors hε hf'

theorem ofMatrix_eq (ha : a.HasEntries A) :
    ofMatrix (of ε) a = (List.range n).foldlM (step (of ε)) ⟨a, Array.range n⟩ := by
  have hsquare : a.isSquare := beq_iff_eq.mpr (ha.rows.trans ha.cols.symm)
  rw [ofMatrix, if_pos hsquare, ha.rows]

theorem exists_factorsUntil_of_ofMatrix [IsStrictOrderedRing K] (ha : a.HasEntries A) (hε : 0 < ε)
    (hf : ofMatrix (of ε) a = .ok f) : ∃ σ M, FactorsUntil ε A n f σ M := by
  rw [ofMatrix_eq ha] at hf
  exact exists_factorsUntil ha hε le_rfl hf

theorem exists_singular_of_foldlM {ks : List ℕ} {e : Error (Exact I)}
    (h : ks.foldlM (step (of ε)) f = .error e) : ∃ pivot k, e = .singular pivot k := by
  induction ks generalizing f with
  | nil => cases h
  | cons k ks ih =>
    rw [List.foldlM_cons] at h
    rcases exists_of_bind_eq_error h with hk | ⟨g, _, h⟩
    case inl =>
      unfold step at hk
      simp only at hk
      split at hk
      case isTrue  => cases hk
      case isFalse => cases hk; exact ⟨_, _, rfl⟩
    case inr => exact ih h

-- Nothing else can go wrong with a square matrix.
theorem exists_singular_of_ofMatrix (ha : a.HasEntries A) {e : Error (Exact I)}
    (h : ofMatrix (of ε) a = .error e) : ∃ pivot k, e = .singular pivot k := by
  rw [ofMatrix_eq ha] at h
  exact exists_singular_of_foldlM h

end Factorization

end InfixAlgebra
