import Mathlib
import InfixAlgebra.Proofs.LinearSystem.Substitution

namespace InfixAlgebra

variable {K : Type} {I : Interpretation K}

open Exact

-- The product of two infinite tables of numbers, as far as the first `n` columns of the one and the
-- first `n` rows of the other go.
def product [Field K] (n : ℕ) (A B : ℕ → ℕ → K) (i j : ℕ) : K :=
  ∑ k ∈ Finset.range n, A i k * B k j

section Product

variable [Field K] {m n : ℕ} {A B C : ℕ → ℕ → K} {x : K}

theorem product_assoc : product m (product n A B) C = product n A (product m B C) := by
  funext i j
  simp only [product, Finset.sum_mul, Finset.mul_sum, mul_assoc]
  exact Finset.sum_comm

theorem product_add : product n A (B + C) = product n A B + product n A C := by
  funext i j
  simp only [product, Pi.add_apply, mul_add, Finset.sum_add_distrib]

theorem add_product : product n (A + B) C = product n A C + product n B C := by
  funext i j
  simp only [product, Pi.add_apply, add_mul, Finset.sum_add_distrib]

theorem smul_product : product n (x • A) B = x • product n A B := by
  funext i j
  simp only [product, Pi.smul_apply, smul_eq_mul, mul_assoc, Finset.mul_sum]

theorem product_smul : product n A (x • B) = x • product n A B := by
  funext i j
  simp only [product, Pi.smul_apply, smul_eq_mul, mul_left_comm, Finset.mul_sum]

end Product

namespace Matrix

def table (rows cols : ℕ) (isVector : Bool) (A : ℕ → ℕ → K) : Matrix (Exact I) :=
  { ofFn rows cols fun i j => of (A i j) with isVector := isVector }

structure Proper (m : Matrix (Exact I)) : Prop where
  wellFormed : m.WellFormed
  defined    : ∀ x ∈ m.data, ∃ k, x = of k

variable {rows cols i j : ℕ} {u w : Bool} {A B : ℕ → ℕ → K} {m : Matrix (Exact I)}

theorem proper_of_all (hm : m.WellFormed) (h : m.data.toList.all Option.isSome) : m.Proper where
  wellFormed   := hm
  defined x hx :=
    Option.isSome_iff_exists.mp (List.all_eq_true.mp h x (Array.mem_toList_iff.mpr hx))

theorem table_congr (h : ∀ i < rows, ∀ j < cols, A i j = B i j) :
    (table rows cols w A : Matrix (Exact I)) = table rows cols w B := by
  unfold table
  rw [ofFn_congr fun i hi j hj => congrArg of (h i hi j hj)]

theorem getElem_table {k : ℕ} (h : k < (table rows cols w A : Matrix (Exact I)).data.size) :
    (table rows cols w A).data[k] = (of (A (k / cols) (k % cols)) : Exact I) :=
  Array.getElem_ofFn h

theorem size_table : (table rows cols w A : Matrix (Exact I)).data.size = rows * cols :=
  Array.size_ofFn

theorem eq_table (hrows : m.rows = rows) (hcols : m.cols = cols) (hvector : m.isVector = w)
    (hsize : m.data.size = rows * cols)
    (h : ∀ k (hk : k < m.data.size), m.data[k] = of (A (k / cols) (k % cols))) :
    m = table rows cols w A := by
  have hdata : m.data = (table rows cols w A).data :=
    Array.ext (hsize.trans size_table.symm) fun k h₁ h₂ => (h k h₁).trans (getElem_table h₂).symm
  calc m = ⟨rows, cols, m.data, w⟩ := by rw [← hrows, ← hcols, ← hvector]
    _ = table rows cols w A := by rw [hdata]; rfl

theorem map_table {f : Exact I → Exact I} {g : K → K} (h : ∀ k, f (of k) = of (g k)) :
    (table rows cols w A).map f = table rows cols w fun i j => g (A i j) := by
  refine eq_table rfl rfl rfl (Array.size_map.trans size_table) fun k hk => ?_
  rw [← h]
  exact (Array.getElem_map ..).trans (congrArg f (getElem_table _))

theorem ofVector_eq_table {n : ℕ} (x : ℕ → K) :
    ofVector ((List.range n).map fun j => of (x j)) =
      (table n 1 true fun j _ => x j : Matrix (Exact I)) := by
  have hlength : ((List.range n).map fun j => (of (x j) : Exact I)).length = n := by simp
  refine eq_table hlength rfl rfl (hlength.trans (Nat.mul_one n).symm) fun k hk => ?_
  simp [ofVector]

variable [Field K] [LinearOrder K]

theorem entry_table (hi : i < rows) (hj : j < cols) :
    (table rows cols w A).entry i j = (of (A i j) : Exact I) :=
  entry_ofFn (fun i j => of (A i j)) hi hj

theorem entry_mem {α : Type} [Zero α] {m : Matrix α} (h : m.WellFormed) (hi : i < m.rows)
    (hj : j < m.cols) : m.entry i j ∈ m.data := by
  have hk : i * m.cols + j < m.data.size := h.size ▸ index_lt hi hj
  rw [entry, Array.getD_eq_getD_getElem?, Array.getElem?_eq_getElem hk, Option.getD_some]
  exact Array.getElem_mem hk

-- All proper matrices are such tables.
theorem Proper.exists_table (h : m.Proper) : ∃ A, m = table m.rows m.cols m.isVector A := by
  have hdefined (i j : ℕ) : ∃ k, i < m.rows → j < m.cols → m.entry i j = of k := by
    by_cases hij : i < m.rows ∧ j < m.cols
    case pos =>
      have ⟨k, hk⟩ := h.defined _ (entry_mem h.wellFormed hij.1 hij.2)
      exact ⟨k, fun _ _ => hk⟩
    case neg => exact ⟨0, fun hi hj => absurd ⟨hi, hj⟩ hij⟩
  choose A hA using hdefined
  refine ⟨A, ?_⟩
  rw [table, ← ofFn_congr fun i hi j hj => hA i j hi hj, h.wellFormed.ofFn_entry]

theorem scale_table (x : K) :
    (table rows cols w A : Matrix (Exact I)).scale (of x) = table rows cols w (x • A) :=
  map_table fun k => (of_mul_of k x).trans (congrArg of (mul_comm k x))

theorem add_table : (table rows cols u A : Matrix (Exact I)).add (table rows cols w B) =
    .ok (table rows cols (u && w) (A + B)) := by
  refine (if_pos ⟨rfl, rfl⟩).trans (congrArg Except.ok ?_)
  refine eq_table rfl rfl rfl (by simp [size_table]) fun k hk => ?_
  simp only [Array.getElem_zipWith, getElem_table]
  rfl

theorem sum_range_eq {n : ℕ} {f : ℕ → Exact I} {g : ℕ → K} (h : ∀ k < n, f k = of (g k)) :
    Scalar.sum ((List.range n).map f) = of (∑ k ∈ Finset.range n, g k) :=
  sum_map_eq fun k hk => h k (List.mem_range.mp hk)

theorem mul_table {n : ℕ} : (table rows n u A : Matrix (Exact I)).mul (table n cols w B) =
    .ok (table rows cols w (product n A B)) := by
  refine (if_pos rfl).trans (congrArg Except.ok ?_)
  let sums (i j : ℕ) : Exact I := Scalar.sum ((List.range n).map fun k =>
    (table rows n u A).entry i k * (table n cols w B).entry k j)
  have hsums : ofFn rows cols sums = ofFn rows cols fun i j => of (product n A B i j) :=
    ofFn_congr fun i hi j hj => sum_range_eq fun k hk =>
      congrArg₂ (· * ·) (entry_table hi hk) (entry_table hk hj)
  exact congrArg (fun p : Matrix (Exact I) => { p with isVector := w }) hsums

theorem dot_table {n : ℕ} : (table n 1 u A : Matrix (Exact I)).dot (table n 1 w B) =
    .ok (of (∑ k ∈ Finset.range n, A k 0 * B k 0)) := by
  refine (if_pos (size_table.trans size_table.symm)).trans (congrArg Except.ok ?_)
  rw [← sum_range_eq (f := fun k => of (A k 0 * B k 0)) fun k _ => rfl]
  congr 1
  apply List.ext_getElem
  case hl => simp [size_table]
  case h =>
    intro k h₁ h₂
    simp only [List.getElem_zipWith, Array.getElem_toList, getElem_table, List.getElem_map,
      List.getElem_range, Nat.div_one, Nat.mod_one]
    rfl

theorem rowMul_table {n : ℕ} : (table n 1 u A : Matrix (Exact I)).rowMul (table n cols w B) =
    .ok (table cols 1 true fun j _ => ∑ k ∈ Finset.range n, A k 0 * B k j) := by
  refine (if_pos rfl).trans (congrArg Except.ok ?_)
  rw [← ofVector_eq_table]
  refine congrArg ofVector (List.map_congr_left fun j hj => sum_range_eq fun k hk => ?_)
  have hfirst : (table n 1 u A).data.getD (k * 1) 0 = (of (A k 0) : Exact I) :=
    entry_table hk Nat.one_pos
  rw [Nat.mul_one] at hfirst
  exact congrArg₂ (· * ·) hfirst (entry_table hk (List.mem_range.mp hj))

end Matrix

end InfixAlgebra
