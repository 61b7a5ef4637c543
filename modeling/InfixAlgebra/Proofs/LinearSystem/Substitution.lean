import Mathlib
import InfixAlgebra.Proofs.LinearSystem.Factorization

namespace InfixAlgebra

variable {K : Type} {I : Interpretation K} {n : ℕ}

namespace Exact

def column (x : Fin n → K) : List (Exact I) :=
  List.ofFn fun i => of (x i)

theorem length_column (x : Fin n → K) : (column x : List (Exact I)).length = n :=
  List.length_ofFn

theorem getElem_column (x : Fin n → K) (i : Fin n) (h : i < (column x : List (Exact I)).length) :
    (column x : List (Exact I))[(i : ℕ)] = of (x i) :=
  List.getElem_ofFn h

variable [Field K] [LinearOrder K]

theorem sum_eq (xs : List (Exact I)) : Scalar.sum xs = xs.sum := by
  rw [Scalar.sum, Exact.neg_zero, List.sum_eq_foldl]

theorem sum_map_eq {β : Type} {xs : List β} {f : β → Exact I} {g : β → K}
    (h : ∀ x ∈ xs, f x = of (g x)) : Scalar.sum (xs.map f) = of (xs.map g).sum := by
  rw [sum_eq]
  induction xs with
  | nil          => rfl
  | cons x xs ih =>
    rw [List.map_cons, List.sum_cons, h x List.mem_cons_self,
      ih fun y hy => h y (List.mem_cons_of_mem _ hy)]
    rfl

end Exact

namespace Factorization

open Exact

variable {i j : Fin n}

-- The columns before and after column `i`.

def before (i : Fin n) : List (Fin n) :=
  (List.finRange n).take i

def after (i : Fin n) : List (Fin n) :=
  (List.finRange n).drop (i + 1)

theorem lt_of_mem_before (h : j ∈ before i) : j < i := by
  have ⟨k, hk, hj⟩ := List.mem_take_iff_getElem.mp h
  rw [← hj, List.getElem_finRange]
  exact (lt_min_iff.mp hk).left

theorem lt_of_mem_after (h : j ∈ after i) : i < j := by
  have ⟨k, hk, hj⟩ := List.mem_drop_iff_getElem.mp h
  rw [← hj, List.getElem_finRange, Fin.lt_def]
  exact Nat.lt_of_lt_of_le (Nat.lt_succ_self i) (Nat.le_add_right _ k)

theorem range_eq_map_before (i : Fin n) : List.range i = (before i).map Fin.val := by
  rw [before, List.map_take, List.map_coe_finRange_eq_range, List.take_range,
    Nat.min_eq_left i.isLt.le]

theorem zipIdx_drop_column (x : Fin n → K) (i : Fin n) :
    ((column x : List (Exact I)).drop (i + 1)).zipIdx (i + 1) =
      (after i).map fun j => (of (x j), (j : ℕ)) := by
  refine List.ext_getElem ?_ fun k h₁ h₂ => ?_
  · simp [after, length_column]
  · simp [after, column]

section Triangles

variable [Field K] (M : Fin n → Fin n → K) (x : Fin n → K)

theorem sum_eq_before_add_after (g : Fin n → K) (i : Fin n) :
    ∑ j, g j = ((before i).map g).sum + g i + ((after i).map g).sum := by
  have hi : (i : ℕ) < (List.finRange n).length := by
    rw [List.length_finRange]
    exact i.isLt
  rw [Fin.sum_univ_def, ← List.take_append_drop i (List.finRange n), List.drop_eq_getElem_cons hi,
    List.map_append, List.sum_append, List.map_cons, List.sum_cons, List.getElem_finRange,
    add_assoc]
  rfl

theorem sum_unitLower_mul (i : Fin n) :
    ∑ j, unitLower M i j * x j = ((before i).map fun j => M i j * x j).sum + x i := by
  have hbefore : ∀ j ∈ before i, unitLower M i j * x j = M i j * x j := fun j hj => by
    rw [unitLower, if_pos (lt_of_mem_before hj)]
  have hself : unitLower M i i * x i = x i := by
    rw [unitLower, if_neg (lt_irrefl i), if_pos rfl, one_mul]
  have hafter : ∀ j ∈ after i, unitLower M i j * x j = 0 := fun j hj => by
    have hij := lt_of_mem_after hj
    rw [unitLower, if_neg hij.not_gt, if_neg hij.ne', zero_mul]
  rw [sum_eq_before_add_after, List.map_congr_left hbefore, hself, List.map_congr_left hafter,
    List.sum_map_zero, add_zero]

theorem sum_upper_mul (i : Fin n) :
    ∑ j, upper M i j * x j = M i i * x i + ((after i).map fun j => M i j * x j).sum := by
  have hbefore : ∀ j ∈ before i, upper M i j * x j = 0 := fun j hj => by
    rw [upper, if_pos (lt_of_mem_before hj), zero_mul]
  have hself : upper M i i * x i = M i i * x i := by
    rw [upper, if_neg (lt_irrefl i)]
  have hafter : ∀ j ∈ after i, upper M i j * x j = M i j * x j := fun j hj => by
    rw [upper, if_neg (lt_of_mem_after hj).not_gt]
  rw [sum_eq_before_add_after, List.map_congr_left hbefore, hself, List.map_congr_left hafter,
    List.sum_map_zero, zero_add]

end Triangles

variable [Field K] [LinearOrder K] {M : Fin n → Fin n → K} {σ : Equiv.Perm (Fin n)}
  {f : Factorization (Exact I)} {b x y : Fin n → K}

theorem forward_next (hM : f.packed.HasEntries M) (hσ : f.order = Array.ofFn fun i => (σ i : ℕ))
    (hy : ∑ j, unitLower M i j * y j = b (σ i)) :
    forward.next f (column b).toArray ((column y).take i).toArray i =
      ((column y).take (i + 1)).toArray := by
  have hknown : Scalar.sum ((List.range i).map fun j =>
      f.packed.entry i j * ((column y).take i).toArray.getD j 0) =
        of ((before i).map fun j => M i j * y j).sum := by
    rw [range_eq_map_before, List.map_map]
    refine sum_map_eq fun j hj => ?_
    have hji : (j : ℕ) < i := lt_of_mem_before hj
    have hget : ((column y).take i).toArray.getD j 0 = (of (y j) : Exact I) := by
      simp [Array.getD, length_column, hji, getElem_column]
    exact congrArg₂ (· * ·) (hM.entry i j) hget
  have hconstant :
      (column b).toArray.getD (f.order.getD i 0) 0 = (of (b (σ i)) : Exact I) := by
    simp [Array.getD, hσ, length_column, getElem_column]
  have hvalue : of (b (σ i)) - of ((before i).map fun j => M i j * y j).sum =
      (of (y i) : Exact I) := by
    rw [← hy, sum_unitLower_mul, of_sub_of, add_sub_cancel_left]
  have hi : (i : ℕ) < (column y : List (Exact I)).length := by
    rw [length_column]
    exact i.isLt
  change Array.push _ (_ - Scalar.sum _) = _
  rw [hknown, hconstant, hvalue, List.push_toArray, ← getElem_column y i hi, List.take_concat_get']

-- The numbers that solve for the lower factor are found from the first to the last.
theorem forward_eq (hM : f.packed.HasEntries M) (hσ : f.order = Array.ofFn fun i => (σ i : ℕ))
    (hy : ∀ i, ∑ j, unitLower M i j * y j = b (σ i)) :
    f.forward (column b).toArray = (column y).toArray := by
  have hfold {k : ℕ} (hk : k ≤ n) :
      (List.range k).foldl (forward.next f (column b).toArray) #[] =
        ((column y).take k).toArray := by
    induction k with
    | zero      => rfl
    | succ k ih =>
      rw [List.range_succ, List.foldl_append, ih (Nat.le_of_succ_le hk), List.foldl_cons,
        List.foldl_nil]
      exact forward_next (i := ⟨k, hk⟩) hM hσ (hy _)
  rw [forward, dimension, hM.rows, hfold le_rfl, List.take_of_length_le (length_column y).le]

theorem backward_next (hM : f.packed.HasEntries M) (hi : M i i ≠ 0)
    (hx : ∑ j, upper M i j * x j = y i) :
    backward.next f (column y).toArray i ((column x).drop (i + 1)) = (column x).drop i := by
  have hknown : Scalar.sum ((((column x).drop (i + 1)).zipIdx (i + 1)).map fun (x, j) =>
      f.packed.entry i j * x) = of ((after i).map fun j => M i j * x j).sum := by
    rw [zipIdx_drop_column, List.map_map]
    exact sum_map_eq fun j _ => congrArg (· * of (x j)) (hM.entry i j)
  have hget : (column y).toArray.getD i 0 = (of (y i) : Exact I) := by
    simp [Array.getD, length_column, getElem_column]
  have hvalue : (of (y i) - of ((after i).map fun j => M i j * x j).sum) / f.packed.entry i i =
      (of (x i) : Exact I) := by
    rw [← hx, sum_upper_mul, of_sub_of, add_sub_cancel_right, hM.entry, of_div_of _ hi,
      mul_div_cancel_left₀ (x i) hi]
  have hlt : (i : ℕ) < (column x : List (Exact I)).length := by
    rw [length_column]
    exact i.isLt
  change (_ - Scalar.sum (List.map _ _)) / _ :: _ = _
  rw [hknown, hget, hvalue, ← getElem_column x i hlt, ← List.drop_eq_getElem_cons hlt]

-- The numbers that solve for the upper factor are found from the last to the first.
theorem backward_eq (hM : f.packed.HasEntries M) (hdiagonal : ∀ i, M i i ≠ 0)
    (hx : ∀ i, ∑ j, upper M i j * x j = y i) : f.backward (column y).toArray = column x := by
  have hfold {m k : ℕ} (hk : k + m = n) :
      (List.range' k m).foldr (backward.next f (column y).toArray) [] = (column x).drop k := by
    induction m generalizing k with
    | zero =>
      rw [List.drop_of_length_le (by rw [length_column]; exact hk.ge)]
      rfl
    | succ m ih =>
      rw [List.range'_succ, List.foldr_cons, ih (by omega)]
      exact backward_next (i := ⟨k, by omega⟩) hM (hdiagonal _) (hx _)
  rw [backward, dimension, hM.rows, List.range_eq_range', hfold (Nat.zero_add n), List.drop_zero]

-- Solving undoes a multiplication by the matrix.
theorem solve_eq (hM : f.packed.HasEntries M) (hσ : f.order = Array.ofFn fun i => (σ i : ℕ))
    (hdiagonal : ∀ i, M i i ≠ 0)
    (hx : ∀ i, ∑ j, (∑ t, unitLower M i t * upper M t j) * x j = b (σ i)) :
    f.solve (column b) = .ok (column x) := by
  have hy (i : Fin n) : ∑ t, unitLower M i t * ∑ j, upper M t j * x j = b (σ i) := by
    rw [← hx i]
    simp only [Finset.sum_mul, Finset.mul_sum, mul_assoc]
    exact Finset.sum_comm
  have hlength : (column b : List (Exact I)).length = f.dimension :=
    (length_column b).trans hM.rows.symm
  rw [solve, if_pos hlength, forward_eq hM hσ hy,
    backward_eq hM hdiagonal fun _ => rfl]
  rfl

end Factorization

end InfixAlgebra
