import Mathlib
import InfixAlgebra.Proofs.LinearSystem.Solving
import InfixAlgebra.Proofs.LinearSystem.Spreading

namespace InfixAlgebra

variable {K : Type} {I : Interpretation K} [Field K] [LinearOrder K]

namespace Exact

variable {x : Exact I}

omit [Field K] [LinearOrder K] in
def undefined : Exact I :=
  none

theorem undefined_add (x : Exact I) : undefined + x = undefined :=
  rfl

theorem add_undefined (x : Exact I) : x + undefined = undefined := by
  rw [add_comm, undefined_add]

theorem mul_undefined (x : Exact I) : x * undefined = undefined := by
  rw [mul_comm]
  rfl

theorem sub_undefined (x : Exact I) : x - undefined = undefined := by
  cases x <;> rfl

theorem div_zero_eq_undefined (x : Exact I) : x / 0 = undefined := by
  cases x with
  | none   => rfl
  | some a => exact if_pos rfl

theorem not_le_undefined (x : Exact I) : ¬Scalar.le x undefined := by
  cases x <;> nofun

theorem absorbing_undefined : Absorbing fun x : Exact I => x = undefined where
  sub_left hx   := by rw [hx]; rfl
  sub_right hy  := by rw [hy, sub_undefined]
  mul_left hx   := by rw [hx]; rfl
  mul_right hy  := by rw [hy, mul_undefined]
  div_left hx   := by rw [hx]; rfl
  not_le_abs hx := by rw [hx]; exact not_le_undefined _

theorem sum_eq_undefined {xs : List (Exact I)} (h : undefined ∈ xs) :
    Scalar.sum xs = undefined := by
  rw [sum_eq]
  induction xs with
  | nil => cases h
  | cons x xs ih =>
    rw [List.sum_cons]
    cases h with
    | head      => exact undefined_add _
    | tail _ hx => rw [ih hx, add_undefined]

theorem snap_undefined (tolerance : Exact I) : Solution.snap tolerance undefined = undefined :=
  rfl

end Exact

open Exact

theorem Config.exists_of_validate {config : Config (Exact I)} (h : config.validate = .ok ()) :
    ∃ ε, 0 ≤ ε ∧ config.pivotEpsilon = of ε := by
  unfold validate at h
  split at h
  case isTrue => cases h
  case isFalse =>
    split at h
    case isTrue => cases h
    case isFalse =>
      split at h
      case isFalse => cases h
      case isTrue hle =>
        have hle : Scalar.le 0 config.pivotEpsilon := (Bool.and_eq_true_iff.mp hle).1
        cases hε : config.pivotEpsilon with
        | none   => exact absurd (hε ▸ hle) (not_le_undefined 0)
        | some ε =>
          rw [hε] at hle
          exact ⟨ε, le_of_iff.mp hle, rfl⟩

namespace Factorization

variable {n c l : ℕ} {A M : Fin n → Fin n → K} {σ : Equiv.Perm (Fin n)} {δ ε : K}
  {a m : Matrix (Exact I)} {f f' : Factorization (Exact I)} {k p : Fin n}

-- In whatever columns elimination gets through, it divides by a number, and not by zero.
def DividesProperly (ε : Exact I) (a : Matrix (Exact I)) : Prop :=
  ∀ k < a.rows, ∀ f f', (List.range k).foldlM (step ε) ⟨a, Array.range a.rows⟩ = .ok f →
    step ε f k = .ok f' →
      ∃ x, x ≠ 0 ∧ (swapRows f.packed k (pivotRow f.packed k)).entry k k = of x

theorem step_eq (hM : f.packed.HasEntries M) (hp : pivotRow f.packed k = p) :
    step (of ε) f k =
      if ε ≤ |M p k| then .ok ⟨eliminate (swapRows f.packed k p) k, f.order.swapIfInBounds k p⟩
      else .error (.singular (of (M p k)) k) := by
  unfold step
  simp only [hp, hM.entry, abs_of, le_of_iff]
  rfl

theorem entry_swapRows_self (hM : f.packed.HasEntries M) (hp : pivotRow f.packed k = p) :
    (swapRows f.packed k (pivotRow f.packed k)).entry k k = of (M p k) := by
  rw [hp, (hasEntries_swapRows hM k p).entry, Equiv.swap_apply_left]

-- Where the last column has been cleared with a zero, nothing is known of the rest.
structure Collapsed (n l : ℕ) (m : Matrix (Exact I)) : Prop where
  rows  : m.rows = n
  cols  : m.cols = n
  lt    : l < n
  pivot : m.entry l l = 0
  rest  : ∀ i j, l < i → i < n → l < j → j < n → m.entry i j = undefined

theorem collapsed_eliminate (hm : m.HasEntries M) (hk : M k k = 0) :
    Collapsed n k (eliminate m k) where
  rows  := hm.rows
  cols  := hm.cols
  lt    := k.isLt
  pivot := by
    rw [entry_eliminate (hm.rows ▸ k.isLt) (hm.cols ▸ k.isLt), cleared, if_pos (.inl le_rfl),
      hm.entry, hk]
    rfl
  rest i j hki hi hkj hj := by
    have hzero : m.entry k k = 0 := (hm.entry k k).trans (congrArg of hk)
    rw [entry_eliminate (hm.rows ▸ hi) (hm.cols ▸ hj), cleared_of_lt hki hkj, hzero,
      div_zero_eq_undefined]
    exact absorbing_undefined.sub_right (absorbing_undefined.mul_left rfl)

namespace Collapsed

-- If that was not the last column, then the next one has no pivot.
theorem exists_singular (h : Collapsed n l f.packed) (hl : l + 1 < n) (ε : Exact I) :
    ∃ pivot, ∃ k < n,
      (List.range' (l + 1) (n - (l + 1))).foldlM (step ε) f = .error (.singular pivot k) :=
  have htainted : Tainted (fun x => x = undefined) n (l + 1) f.packed :=
    ⟨h.rows, h.cols, l + 1, l + 1, le_rfl, hl, le_rfl, hl,
      h.rest _ _ (Nat.lt_succ_self l) hl (Nat.lt_succ_self l) hl⟩
  htainted.exists_singular absorbing_undefined ε

-- If it was, then the first number that is solved for is undefined, and the others depend on it.

theorem backward_next (h : Collapsed n l f.packed) {ys : Array (Exact I)} {i c : ℕ}
    (hi : i + c = l) :
    backward.next f ys i (List.replicate c undefined) = List.replicate (c + 1) undefined := by
  refine congrArg (· :: List.replicate c undefined) (?_ : (_ - Scalar.sum _) / _ = undefined)
  cases c with
  | zero =>
    obtain rfl : i = l := hi
    rw [h.pivot, div_zero_eq_undefined]
  | succ c =>
    have hknown : undefined ∈ ((List.replicate (c + 1) undefined).zipIdx (i + 1)).map
        fun (x, j) => f.packed.entry i j * x :=
      List.mem_map.mpr ⟨(undefined, i + 1), List.mem_cons_self, mul_undefined _⟩
    rw [sum_eq_undefined hknown, sub_undefined]
    exact absorbing_undefined.div_left rfl

theorem solve_eq (h : Collapsed n l f.packed) (hl : l + 1 = n) (b : Fin n → K) :
    f.solve (column b) = .ok (List.replicate n undefined) := by
  have hlength : (column b : List (Exact I)).length = f.dimension :=
    (length_column b).trans h.rows.symm
  have hfold {ys : Array (Exact I)} {k c : ℕ} (hk : k + c = n) :
      (List.range' k c).foldr (backward.next f ys) [] = List.replicate c undefined := by
    induction c generalizing k with
    | zero => rfl
    | succ c ih =>
      rw [List.range'_succ, List.foldr_cons, ih (by omega)]
      exact h.backward_next (by omega)
  rw [solve, if_pos hlength, backward, dimension, h.rows, List.range_eq_range',
    hfold (Nat.zero_add n)]
  rfl

end Collapsed

theorem FactorsUntil.mono (h : FactorsUntil ε A c f σ M) (hδ : δ ≤ ε) :
    FactorsUntil δ A c f σ M :=
  { h with pivots := fun i hi => hδ.trans (h.pivots i hi) }

section Ordered

variable [IsStrictOrderedRing K]

theorem dividesProperly_of_pos (ha : a.HasEntries A) (hε : 0 < ε) : DividesProperly (of ε) a := by
  intro k hk f f' hf hf'
  rw [ha.rows] at hk hf
  have ⟨σ, M, h⟩ := exists_factorsUntil ha hε hk.le hf
  have ⟨p, hp, _⟩ := exists_pivotRow_eq h.packed ⟨k, hk⟩
  refine ⟨M p ⟨k, hk⟩, ?_, entry_swapRows_self (k := ⟨k, hk⟩) h.packed hp⟩
  have hstep := step_eq (ε := ε) (k := ⟨k, hk⟩) h.packed hp
  rw [hf'] at hstep
  split at hstep
  case isTrue hle => exact abs_pos.mp (hε.trans_le hle)
  case isFalse    => cases hstep

-- Elimination of `A` has come to column `c`, and all pivots so far have been numbers other than
-- zero.
def PivotsUntil (A : Fin n → Fin n → K) (c : ℕ) (f : Factorization (Exact I)) : Prop :=
  ∃ δ > 0, ∃ σ M, FactorsUntil δ A c f σ M

-- If zero is large enough for a pivot, then every column is dealt with, but perhaps with a zero.
theorem PivotsUntil.step (h : PivotsUntil A k f) :
    ∃ f', step (of 0) f k = .ok f' ∧ (PivotsUntil A (k + 1) f' ∨ Collapsed n k f'.packed) := by
  have ⟨δ, hδ, σ, M, hfactors⟩ := h
  have ⟨p, hp, _⟩ := exists_pivotRow_eq hfactors.packed k
  let f' : Factorization (Exact I) :=
    ⟨eliminate (swapRows f.packed k p) k, f.order.swapIfInBounds k p⟩
  have hstep {ε : K} (hle : ε ≤ |M p k|) : Factorization.step (of ε) f k = .ok f' := by
    rw [step_eq hfactors.packed hp, if_pos hle]
  refine ⟨f', hstep (abs_nonneg _), ?_⟩
  by_cases hzero : M p k = 0
  case pos =>
    refine .inr (collapsed_eliminate (hasEntries_swapRows hfactors.packed k p) ?_)
    rw [Equiv.swap_apply_left, hzero]
  case neg =>
    have hpos : 0 < min δ |M p k| := lt_min hδ (abs_pos.mpr hzero)
    have hsmaller := hfactors.mono (min_le_left δ |M p k|)
    exact .inl ⟨_, hpos, hsmaller.step hpos (hstep (min_le_right δ |M p k|))⟩

theorem pivotsUntil_or_collapsed (ha : a.HasEntries A) (hc : c ≤ n) :
    (∃ f, (List.range c).foldlM (step (of 0)) ⟨a, Array.range n⟩ = .ok f ∧ PivotsUntil A c f) ∨
      ∃ l f, (List.range (l + 1)).foldlM (step (of 0)) ⟨a, Array.range n⟩ = .ok f ∧
        Collapsed n l f.packed := by
  induction c with
  | zero => exact .inl ⟨_, rfl, 1, one_pos, _, _, .initial ha⟩
  | succ c ih =>
    cases ih (Nat.le_of_succ_le hc) with
    | inr h => exact .inr h
    | inl h =>
      have ⟨f, hf, hpivots⟩ := h
      have ⟨f', hf', hnext⟩ := PivotsUntil.step (k := ⟨c, hc⟩) hpivots
      have hrun : (List.range (c + 1)).foldlM (Factorization.step (of 0)) ⟨a, Array.range n⟩ =
          .ok f' := by
        rw [List.range_succ, List.foldlM_append, hf]
        exact congrArg (· >>= pure) hf'
      cases hnext with
      | inl hnext => exact .inl ⟨f', hrun, hnext⟩
      | inr hnext => exact .inr ⟨c, f', hrun, hnext⟩

end Ordered

end Factorization

namespace Matrix

open Factorization

variable [IsStrictOrderedRing K] {n : ℕ} {A : Fin n → Fin n → K} {a : Matrix (Exact I)}
  {config : Config (Exact I)} {ε : K}

omit [LinearOrder K] [IsStrictOrderedRing K] in
theorem det_eq_zero_of_dependent (h : ¬LinearIndependent K A) : (Matrix.of A).det = 0 := by
  by_contra hdet
  have hunit : IsUnit (Matrix.of A) :=
    (Matrix.isUnit_iff_isUnit_det _).mpr (isUnit_iff_ne_zero.mpr hdet)
  exact h (Matrix.linearIndependent_rows_iff_isUnit.mpr hunit)

theorem solve_zero_of_dependent (ha : a.HasEntries A) (h : ¬LinearIndependent K A)
    (hε : config.pivotEpsilon = of 0) (b : Fin n → K) :
    (∃ pivot k, a.solve config (column b) = .error (.singular pivot k)) ∨
      a.solve config (column b) = .ok (List.replicate n undefined) := by
  cases pivotsUntil_or_collapsed ha le_rfl with
  | inl hpivots =>
    have ⟨f, _, δ, hδ, σ, M, hfactors⟩ := hpivots
    have hunit := (Matrix.isUnit_iff_isUnit_det _).mp (hfactors.isUnit hδ)
    exact absurd (det_eq_zero_of_dependent h) hunit.ne_zero
  | inr hcollapsed =>
    have ⟨l, f, hf, hcollapsed⟩ := hcollapsed
    rcases Nat.eq_or_lt_of_le hcollapsed.lt with hl | hl
    case inl =>
      have hfactors : ofMatrix config.pivotEpsilon a = .ok f := by
        rw [hε, ofMatrix_eq ha, ← hf, ← congrArg List.range hl]
      refine .inr ((solve_eq_of_ok ha hfactors (hcollapsed.solve_eq hl b)).trans ?_)
      rw [List.map_replicate, snap_undefined]
    case inr =>
      have hrange : List.range n = List.range (l + 1) ++ List.range' (l + 1) (n - (l + 1)) := by
        rw [List.range_eq_range', List.range_eq_range', ← Nat.add_sub_of_le hl.le,
          ← List.range'_append_1, Nat.zero_add, Nat.add_sub_cancel_left]
      have ⟨pivot, k, _, hrest⟩ := hcollapsed.exists_singular hl (of 0)
      have hsingular : ofMatrix config.pivotEpsilon a = .error (.singular pivot k) := by
        rw [hε, ofMatrix_eq ha, hrange, List.foldlM_append, hf]
        exact hrest
      exact .inl ⟨pivot, k, solve_eq_of_error ha hsingular b⟩

-- Every configuration that is accepted makes the rows of a matrix that depend on each other show up
-- as a missing pivot, save for the one where zero is large enough for a pivot.
theorem solve_of_dependent (ha : a.HasEntries A) (h : ¬LinearIndependent K A)
    (hvalid : config.validate = .ok ()) (b : Fin n → K) :
    (config.pivotEpsilon ≠ 0 → DividesProperly config.pivotEpsilon a ∧
      ∃ pivot k, a.solve config (column b) = .error (.singular pivot k)) ∧
    (config.pivotEpsilon = 0 →
      (∃ pivot k, a.solve config (column b) = .error (.singular pivot k)) ∨
        a.solve config (column b) = .ok (List.replicate n undefined)) := by
  have ⟨ε, hle, hε⟩ := Config.exists_of_validate hvalid
  constructor
  case left =>
    intro hne
    have hpos : 0 < ε := hle.lt_of_ne' fun hzero => hne (hε.trans (congrArg of hzero))
    have ⟨pivot, k, he⟩ := exists_singular_of_det_eq_zero ha hpos (det_eq_zero_of_dependent h)
    exact ⟨hε ▸ dividesProperly_of_pos ha hpos, pivot, k, solve_eq_of_error ha (hε ▸ he) b⟩
  case right => exact fun hzero => solve_zero_of_dependent ha h hzero b

section Example

local instance : DecidableEq (Exact .rational) :=
  inferInstanceAs (DecidableEq (Option ℚ))

-- The second matrix has only one row, up to multiples.
theorem solve_of_dependent_rows :
    let a : Matrix (Exact .rational) :=
      ⟨3, 3, #[some 1, some 2, some 3, some 4, some 5, some 6, some 7, some 8, some 9], false⟩
    let c : Matrix (Exact .rational) :=
      ⟨3, 3, #[some 1, some 2, some 1, some 2, some 4, some 2, some 3, some 6, some 3], false⟩
    let A : Fin 3 → Fin 3 → ℚ := ![![1, 2, 3], ![4, 5, 6], ![7, 8, 9]]
    let C : Fin 3 → Fin 3 → ℚ := ![![1, 2, 1], ![2, 4, 2], ![3, 6, 3]]
    let config : Config (Exact .rational) := .standard
    let exact : Config (Exact .rational) := { config with pivotEpsilon := 0 }
    a.HasEntries A ∧ ¬LinearIndependent ℚ A ∧ config.validate = .ok () ∧
      config.pivotEpsilon ≠ 0 ∧ DividesProperly config.pivotEpsilon a ∧
      (∃ pivot k, a.solve config (column ![1, 2, 4]) = .error (.singular pivot k)) ∧
      c.HasEntries C ∧ ¬LinearIndependent ℚ C ∧ exact.validate = .ok () ∧
      ∃ pivot k, c.solve exact (column ![1, 2, 4]) = .error (.singular pivot k) := by
  intro a c A C config exact
  have ha : a.HasEntries A := ⟨rfl, rfl, by subst a A; decide +kernel⟩
  have hc : c.HasEntries C := ⟨rfl, rfl, by subst c C; decide +kernel⟩
  have hA : ¬LinearIndependent ℚ A := by
    refine Fintype.not_linearIndependent_iff.mpr ⟨![1, -2, 1], ?_, 0, one_ne_zero⟩
    subst A
    decide +kernel
  have hC : ¬LinearIndependent ℚ C := by
    refine Fintype.not_linearIndependent_iff.mpr ⟨![-2, 1, 0], ?_, 1, one_ne_zero⟩
    subst C
    decide +kernel
  have hconfig : config.validate = .ok () := by subst config; decide +kernel
  have hexact : exact.validate = .ok () := by subst exact config; decide +kernel
  have hne : config.pivotEpsilon ≠ 0 := by subst config; decide +kernel
  have hzero : c.solve exact (column ![1, 2, 4]) ≠ .ok (List.replicate 3 undefined) := by
    subst c exact config
    decide +kernel
  have ⟨hproperly, hsingular⟩ := (solve_of_dependent ha hA hconfig ![1, 2, 4]).1 hne
  have hsingular' := (solve_of_dependent hc hC hexact ![1, 2, 4]).2 rfl
  exact ⟨ha, hA, hconfig, hne, hproperly, hsingular, hc, hC, hexact,
    hsingular'.resolve_right hzero⟩

-- With no pivot too small, the system `x + y = 1`, `2 x + 2 y = 3` has an answer that is not one.
theorem solve_undefined_of_zero :
    let a : Matrix (Exact .rational) := ⟨2, 2, #[some 1, some 1, some 2, some 2], false⟩
    let A : Fin 2 → Fin 2 → ℚ := ![![1, 1], ![2, 2]]
    let config : Config (Exact .rational) := { Config.standard with pivotEpsilon := 0 }
    config.validate = .ok () ∧ a.HasEntries A ∧ ¬LinearIndependent ℚ A ∧
      a.solve config (column ![1, 3]) = .ok [undefined, undefined] ∧
      ¬DividesProperly config.pivotEpsilon a := by
  intro a A config
  let f : Factorization (Exact .rational) :=
    ⟨⟨2, 2, #[some 2, some 2, some (1 / 2), some 0], false⟩, #[1, 0]⟩
  have hA : ¬LinearIndependent ℚ A := by
    refine Fintype.not_linearIndependent_iff.mpr ⟨![-2, 1], ?_, 1, one_ne_zero⟩
    subst A
    decide +kernel
  refine ⟨by decide +kernel, ⟨rfl, rfl, by subst a A; decide +kernel⟩, hA, by decide +kernel, ?_⟩
  intro h
  have ⟨x, hx, hentry⟩ := h 1 (by decide) f f (by decide +kernel) (by decide +kernel)
  have hpivot : (swapRows f.packed 1 (pivotRow f.packed 1)).entry 1 1 = of 0 := by decide +kernel
  exact hx (Option.some.inj (hentry.symm.trans hpivot))

end Example

end Matrix

end InfixAlgebra
