import Mathlib
import InfixAlgebra.LinearSystem.Factorization
import InfixAlgebra.Proofs.Exact.Arithmetic
import InfixAlgebra.Proofs.Matrix.Access

namespace InfixAlgebra

variable {K : Type} {I : Interpretation K}

namespace Exact

def of (a : K) : Exact I :=
  some a

variable [Field K] [LinearOrder K] {a b : K}

theorem of_sub_of (a b : K) : of a - of b = (of (a - b) : Exact I) :=
  rfl

theorem of_mul_of (a b : K) : of a * of b = (of (a * b) : Exact I) :=
  rfl

theorem of_div_of (a : K) (hb : b ≠ 0) : of a / of b = (of (a / b) : Exact I) :=
  if_neg hb

theorem abs_of (a : K) : Scalar.abs (of a : Exact I) = of |a| :=
  rfl

theorem lt_of_iff : Scalar.lt (of a : Exact I) (of b) ↔ a < b :=
  decide_eq_true_iff

theorem le_of_iff : Scalar.le (of a : Exact I) (of b) ↔ a ≤ b :=
  decide_eq_true_iff

end Exact

variable [Field K] [LinearOrder K]

open Exact

namespace Matrix

variable {n : ℕ} {m : Matrix (Exact I)} {A : Fin n → Fin n → K}

structure HasEntries (m : Matrix (Exact I)) (A : Fin n → Fin n → K) : Prop where
  rows  : m.rows = n
  cols  : m.cols = n
  entry : ∀ i j : Fin n, m.entry i j = of (A i j)

theorem HasEntries.ofFn {f : ℕ → ℕ → Exact I} (h : ∀ i j : Fin n, f i j = of (A i j)) :
    (ofFn n n f).HasEntries A where
  rows      := rfl
  cols      := rfl
  entry i j := (entry_ofFn f i.isLt j.isLt).trans (h i j)

end Matrix

namespace Factorization

variable {n : ℕ} {m : Matrix (Exact I)} {A : Fin n → Fin n → K} {k p : Fin n}

theorem hasEntries_swapRows (h : m.HasEntries A) (k p : Fin n) :
    (swapRows m k p).HasEntries fun i j => A (Equiv.swap k p i) j := by
  rw [swapRows, h.rows, h.cols]
  refine .ofFn fun i j => ?_
  have hi : (if (i : ℕ) = k then (p : ℕ) else if (i : ℕ) = p then k else i) = Equiv.swap k p i := by
    simp only [Equiv.swap_apply_def, Fin.ext_iff, apply_ite Fin.val]
  rw [hi]
  exact h.entry _ j

theorem hasEntries_eliminate (h : m.HasEntries A) (hk : A k k ≠ 0) :
    (eliminate m k).HasEntries (cleared A k) := by
  rw [eliminate, h.rows, h.cols]
  refine .ofFn fun i j => ?_
  simp only [cleared, Fin.le_def, Fin.lt_def, Fin.ext_iff, h.entry, of_div_of _ hk, of_mul_of,
    of_sub_of, apply_ite of]

-- The search for a pivot goes through the rows from `k` on.

omit [Field K] [LinearOrder K] in
theorem mem_candidates {r k i : ℕ} (hk : k < r) :
    i ∈ k :: List.range' (k + 1) (r - (k + 1)) ↔ k ≤ i ∧ i < r := by
  rw [List.mem_cons, List.mem_range'_1]
  omega

section Search

variable {α : Type} [Scalar α] {m : Matrix α}

theorem mem_foldl_larger (m : Matrix α) (c q : ℕ) (rows : List ℕ) :
    rows.foldl (pivotRow.larger m c) q ∈ q :: rows := by
  induction rows generalizing q with
  | nil => exact List.mem_cons_self
  | cons i rows ih =>
    rw [List.foldl_cons]
    cases List.mem_cons.mp (ih (pivotRow.larger m c q i)) with
    | inl h =>
      rw [h, pivotRow.larger]
      split
      case isTrue  => exact List.mem_cons_of_mem q List.mem_cons_self
      case isFalse => exact List.mem_cons_self
    | inr h => exact List.mem_cons_of_mem q (List.mem_cons_of_mem i h)

theorem pivotRow_bounds {k : ℕ} (hk : k < m.rows) : k ≤ pivotRow m k ∧ pivotRow m k < m.rows :=
  (mem_candidates hk).mp (mem_foldl_larger ..)

end Search

-- It ends at a row that no other row exceeds.
theorem foldl_larger {c q : ℕ} {rows : List ℕ} {size : ℕ → K}
    (h : ∀ i ∈ q :: rows, Scalar.abs (m.entry i c) = of (size i)) :
    ∀ i ∈ q :: rows, size i ≤ size (rows.foldl (pivotRow.larger m c) q) := by
  induction rows generalizing q with
  | nil => simp
  | cons i rows ih =>
    have hq := h q List.mem_cons_self
    have hi := h i (List.mem_cons_of_mem _ List.mem_cons_self)
    rw [List.foldl_cons, pivotRow.larger, hq, hi]
    split
    case isTrue hqi =>
      have hle := ih (q := i) fun j hj => h j (List.mem_cons_of_mem _ hj)
      intro j hj
      cases hj with
      | head      => exact (lt_of_iff.mp hqi).le.trans (hle i List.mem_cons_self)
      | tail _ hj => exact hle j hj
    case isFalse hqi =>
      have hle := ih (q := q) fun j hj => h j (by grind)
      have hiq : size i ≤ size q := not_lt.mp (lt_of_iff.not.mp hqi)
      grind

theorem exists_pivotRow_eq (h : m.HasEntries A) (k : Fin n) :
    ∃ p : Fin n, pivotRow m k = p ∧ k ≤ p ∧ ∀ i ≥ k, |A i k| ≤ |A p k| := by
  let size (i : ℕ) : K := if hi : i < n then |A ⟨i, hi⟩ k| else 0
  have hvalue {i : ℕ} (hi : i < n) : size i = |A ⟨i, hi⟩ k| := dif_pos hi
  have hk : k < m.rows := h.rows ▸ k.isLt
  have hsize (i : ℕ) (hi : i ∈ (k : ℕ) :: List.range' (k + 1) (m.rows - (k + 1))) :
      Scalar.abs (m.entry i k) = of (size i) := by
    have hn : i < n := h.rows ▸ ((mem_candidates hk).mp hi).right
    rw [hvalue hn, h.entry ⟨i, hn⟩ k, abs_of]
  have ⟨hkp, hp⟩ := pivotRow_bounds hk
  rw [h.rows] at hp
  refine ⟨⟨_, hp⟩, rfl, hkp, fun i hi => ?_⟩
  have hip := foldl_larger hsize i ((mem_candidates hk).mpr ⟨hi, h.rows ▸ i.isLt⟩)
  rw [hvalue i.isLt] at hip
  exact hip.trans (hvalue hp).le

end Factorization

end InfixAlgebra
