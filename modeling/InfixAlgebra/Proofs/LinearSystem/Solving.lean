import Mathlib
import InfixAlgebra.Proofs.LinearSystem.Snapping

namespace InfixAlgebra

open Exact

theorem Exact.column_injective {K : Type} {I : Interpretation K} {n : ℕ} :
    Function.Injective (column : (Fin n → K) → List (Exact I)) := by
  intro x y h
  have hxy := List.ofFn_injective h
  exact funext fun i => Option.some.inj (congrFun hxy i)

section General

variable {K : Type} {I : Interpretation K} [Field K] [LinearOrder K] {n : ℕ}
  {A M : Fin n → Fin n → K} {σ : Equiv.Perm (Fin n)} {ε : K} {f : Factorization (Exact I)}
  {a : Matrix (Exact I)} {config : Config (Exact I)} {b : Fin n → K}

namespace Factorization

namespace FactorsUntil

theorem product_eq (h : FactorsUntil ε A n f σ M) (i j : Fin n) :
    ∑ t, unitLower M i t * upper M t j = A (σ i) j := by
  rw [← h.product, lowerUntil_all, upperUntil_all]

theorem unitLower_le (h : FactorsUntil ε A n f σ M) (i j : Fin n) : |unitLower M i j| ≤ 1 := by
  rw [← lowerUntil_all]
  exact h.bounded i j

theorem le_upper (h : FactorsUntil ε A n f σ M) (i : Fin n) : ε ≤ |upper M i i| := by
  rw [upper, if_neg (lt_irrefl i)]
  exact h.pivots i i.isLt

variable [IsStrictOrderedRing K]

-- Solving undoes a multiplication by the matrix.
theorem solve_mulVec (h : FactorsUntil ε A n f σ M) (hε : 0 < ε) (x : Fin n → K) :
    f.solve (column ((Matrix.of A).mulVec x)) = .ok (column x) := by
  have hdiagonal (i : Fin n) : M i i ≠ 0 := abs_pos.mp (hε.trans_le (h.pivots i i.isLt))
  refine solve_eq h.packed h.order hdiagonal fun i => ?_
  simp only [h.product_eq]
  rfl

theorem mulVec_injective (h : FactorsUntil ε A n f σ M) (hε : 0 < ε) :
    Function.Injective (Matrix.of A).mulVec := by
  intro x y hxy
  have hx := h.solve_mulVec hε x
  rw [hxy, h.solve_mulVec hε y] at hx
  exact (column_injective (Except.ok.inj hx)).symm

theorem isUnit (h : FactorsUntil ε A n f σ M) (hε : 0 < ε) : IsUnit (Matrix.of A) :=
  Matrix.mulVec_injective_iff_isUnit.mp (h.mulVec_injective hε)

theorem exists_solution (h : FactorsUntil ε A n f σ M) (hε : 0 < ε) (b : Fin n → K) :
    ∃ x, (∀ y, (Matrix.of A).mulVec y = b ↔ y = x) ∧ f.solve (column b) = .ok (column x) := by
  obtain ⟨x, rfl⟩ := Matrix.mulVec_surjective_iff_isUnit.mpr (h.isUnit hε) b
  exact ⟨x, fun y => (h.mulVec_injective hε).eq_iff, h.solve_mulVec hε x⟩

end FactorsUntil

theorem exists_singular_of_det_eq_zero [IsStrictOrderedRing K] (ha : a.HasEntries A) (hε : 0 < ε)
    (hdet : (Matrix.of A).det = 0) : ∃ pivot k, ofMatrix (of ε) a = .error (.singular pivot k) := by
  cases hf : ofMatrix (of ε) a with
  | ok f =>
    obtain ⟨σ, M, h⟩ := exists_factorsUntil_of_ofMatrix ha hε hf
    have hunit := (Matrix.isUnit_iff_isUnit_det _).mp (h.isUnit hε)
    exact absurd hdet hunit.ne_zero
  | error e =>
    obtain ⟨pivot, k, rfl⟩ := exists_singular_of_ofMatrix ha hf
    exact ⟨pivot, k, rfl⟩

end Factorization

namespace Matrix

theorem solve_eq_bind (ha : a.HasEntries A) (b : Fin n → K) :
    a.solve config (column b) = do
      let f ← Factorization.ofMatrix config.pivotEpsilon a
      let xs ← f.solve (column b)
      return xs.map (Solution.snap config.snapTolerance) := by
  have hsquare : a.isSquare := beq_iff_eq.mpr (ha.rows.trans ha.cols.symm)
  have hlength : ¬(column b : List (Exact I)).length ≠ a.rows :=
    not_not.mpr ((length_column b).trans ha.rows.symm)
  simp only [solve, hsquare, if_neg hlength]
  rfl

theorem solve_eq_of_ok (ha : a.HasEntries A)
    (hf : Factorization.ofMatrix config.pivotEpsilon a = .ok f) {xs : List (Exact I)}
    (hx : f.solve (column b) = .ok xs) :
    a.solve config (column b) = .ok (xs.map (Solution.snap config.snapTolerance)) := by
  rw [solve_eq_bind ha, hf]
  change f.solve (column b) >>= _ = _
  rw [hx]
  rfl

theorem solve_eq_of_error (ha : a.HasEntries A) {e : Error (Exact I)}
    (he : Factorization.ofMatrix config.pivotEpsilon a = .error e) (b : Fin n → K) :
    a.solve config (column b) = .error e := by
  rw [solve_eq_bind ha, he]
  rfl

end Matrix

end General

namespace Factorization

variable {n : ℕ} {a : Matrix (Exact .rational)} {A : Fin n → Fin n → ℚ}
  {config : Config (Exact .rational)} {ε tolerance : ℚ}

-- Elimination that goes through gives triangular factors of the matrix with its rows in another
-- order. No factor of a row is larger than one, and no pivot is smaller than asked for. Then every
-- system has one solution, which is found, and its entries are snapped to the integers next to
-- them. For a singular matrix elimination does not go through.
theorem ofMatrix_solves_exactly (ha : a.HasEntries A) (hε : config.pivotEpsilon = of ε)
    (hpos : 0 < ε) (htolerance : config.snapTolerance = of tolerance) :
    (∀ f, ofMatrix (of ε) a = .ok f →
      (∃ (σ : Equiv.Perm (Fin n)) (M : Fin n → Fin n → ℚ),
        f.order = Array.ofFn (fun i => (σ i : ℕ)) ∧ f.packed.HasEntries M ∧
        (∀ i j, ∑ k, unitLower M i k * upper M k j = A (σ i) j) ∧
        (∀ i j, |unitLower M i j| ≤ 1) ∧ ∀ i, ε ≤ |upper M i i|) ∧
      ∀ b : Fin n → ℚ, ∃ x : Fin n → ℚ,
        (∀ y, (Matrix.of A).mulVec y = b ↔ y = x) ∧ f.solve (column b) = .ok (column x) ∧
        ∃ z : Fin n → ℤ, (∀ i, IsNearest (x i) (z i)) ∧
          a.solve config (column b) =
            .ok (column fun i => if |x i - z i| < tolerance then (z i : ℚ) else x i)) ∧
    ((Matrix.of A).det = 0 → ∃ pivot k,
      ofMatrix (of ε) a = .error (.singular pivot k) ∧
      ∀ b : Fin n → ℚ, a.solve config (column b) = .error (.singular pivot k)) := by
  constructor
  case left =>
    intro f hf
    obtain ⟨σ, M, h⟩ := exists_factorsUntil_of_ofMatrix ha hpos hf
    refine ⟨⟨σ, M, h.order, h.packed, h.product_eq, h.unitLower_le, h.le_upper⟩, fun b => ?_⟩
    obtain ⟨x, hunique, hx⟩ := h.exists_solution hpos b
    choose z hround hnearest using fun i => IsNearest.exists_round (x i)
    refine ⟨x, hunique, hx, z, hnearest, ?_⟩
    rw [Matrix.solve_eq_of_ok ha (hε ▸ hf) hx, htolerance, Solution.map_snap_column]
    simp only [hround]
  case right =>
    intro hdet
    obtain ⟨pivot, k, he⟩ := exists_singular_of_det_eq_zero ha hpos hdet
    exact ⟨pivot, k, he, Matrix.solve_eq_of_error ha (hε ▸ he)⟩

section Example

local instance : DecidableEq (Exact .rational) :=
  inferInstanceAs (DecidableEq (Option ℚ))

-- The rows have to be swapped, and only one of the two numbers is nearly an integer. The matrix
-- with two multiples of the same row is singular.
theorem ofMatrix_solves_exactly_of_swap :
    let a : Matrix (Exact .rational) := ⟨2, 2, #[some 1, some 2, some 4, some 3], false⟩
    let c : Matrix (Exact .rational) := ⟨2, 2, #[some 1, some 1, some 2, some 2], false⟩
    let A : Fin 2 → Fin 2 → ℚ := ![![1, 2], ![4, 3]]
    let C : Fin 2 → Fin 2 → ℚ := ![![1, 1], ![2, 2]]
    let config : Config (Exact .rational) := .standard
    let x : Fin 2 → ℚ := ![1 / 2, 2 + 1 / 10 ^ 11]
    let b : Fin 2 → ℚ := ![9 / 2 + 2 / 10 ^ 11, 8 + 3 / 10 ^ 11]
    let f : Factorization (Exact .rational) :=
      ⟨⟨2, 2, #[some 4, some 3, some (1 / 4), some (5 / 4)], false⟩, #[1, 0]⟩
    a.HasEntries A ∧ c.HasEntries C ∧ config.pivotEpsilon = of (1 / 10 ^ 12) ∧
      config.snapTolerance = of (1 / 10 ^ 10) ∧ (0 : ℚ) < 1 / 10 ^ 12 ∧
      ofMatrix (of (1 / 10 ^ 12)) a = .ok f ∧ (Matrix.of C).det = 0 ∧
      (∀ y, (Matrix.of A).mulVec y = b ↔ y = x) ∧ f.solve (column b) = .ok (column x) ∧
      a.solve config (column b) = .ok (column ![1 / 2, 2]) ∧
      ∃ pivot k, ofMatrix (of (1 / 10 ^ 12)) c = .error (.singular pivot k) := by
  intro a c A C config x b f
  have ha : a.HasEntries A := ⟨rfl, rfl, by subst a A; decide +kernel⟩
  have hc : c.HasEntries C := ⟨rfl, rfl, by subst c C; decide +kernel⟩
  have hε : config.pivotEpsilon = of (1 / 10 ^ 12) := by subst config; decide +kernel
  have htolerance : config.snapTolerance = of (1 / 10 ^ 10) := by subst config; decide +kernel
  have hpos : (0 : ℚ) < 1 / 10 ^ 12 := by decide +kernel
  have hf : ofMatrix (of (1 / 10 ^ 12)) a = .ok f := by subst a f; decide +kernel
  have hdet : (Matrix.of C).det = 0 := by subst C; simp [Matrix.det_fin_two]
  have hb : (Matrix.of A).mulVec x = b := by subst A x b; decide +kernel
  have hsolve : a.solve config (column b) = .ok (column ![1 / 2, 2]) := by
    subst a config b
    decide +kernel
  obtain ⟨-, hsolutions⟩ := (ofMatrix_solves_exactly ha hε hpos htolerance).left f hf
  obtain ⟨x', hunique, hx', -⟩ := hsolutions b
  have hx : x = x' := (hunique x).mp hb
  rw [← hx] at hunique hx'
  obtain ⟨pivot, k, herror, -⟩ := (ofMatrix_solves_exactly hc hε hpos htolerance).right hdet
  exact ⟨ha, hc, hε, htolerance, hpos, hf, hdet, hunique, hx', hsolve, pivot, k, herror⟩

end Example

end Factorization

end InfixAlgebra
