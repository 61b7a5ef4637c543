import Mathlib
import InfixAlgebra.Proofs.Double.NotANumber
import InfixAlgebra.Proofs.LinearSystem.Access
import InfixAlgebra.Proofs.LinearSystem.Entries

namespace InfixAlgebra

variable {α : Type} [Scalar α]

-- Numbers that elimination does not get rid of: whatever is made from one of them is another one,
-- and none of them is large enough for a pivot.
structure Absorbing (p : α → Prop) : Prop where
  sub_left   : ∀ {x y}, p x → p (x - y)
  sub_right  : ∀ {x y}, p y → p (x - y)
  mul_left   : ∀ {x y}, p x → p (x * y)
  mul_right  : ∀ {x y}, p y → p (x * y)
  div_left   : ∀ {x y}, p x → p (x / y)
  not_le_abs : ∀ {ε x}, p x → ¬Scalar.le ε (Scalar.abs x)

theorem absorbing_isNaN : Absorbing fun x : Float => x.isNaN where
  sub_left hx   := Double.isNaN_sub_left hx _
  sub_right hy  := Double.isNaN_sub_right _ hy
  mul_left hx   := Double.isNaN_mul_left hx _
  mul_right hy  := Double.isNaN_mul_right _ hy
  div_left hx   := Double.isNaN_div_left hx _
  not_le_abs hx := Double.not_le_of_isNaN _ (Double.isNaN_abs hx)

theorem Matrix.WellFormed.exists_entry_eq {m : Matrix α} (hm : m.WellFormed) {x : α}
    (hx : x ∈ m.data) : ∃ i < m.rows, ∃ j < m.cols, m.entry i j = x := by
  have ⟨k, hk, hkx⟩ := Array.mem_iff_getElem.mp hx
  have hlt : k < m.rows * m.cols := hm.size ▸ hk
  have hcols : 0 < m.cols := Nat.pos_of_mul_pos_left (Nat.zero_lt_of_lt hlt)
  refine ⟨k / m.cols, (Nat.div_lt_iff_lt_mul hcols).mpr hlt, k % m.cols, Nat.mod_lt k hcols, ?_⟩
  rw [entry, Nat.div_add_mod', Array.getD_eq_getD_getElem?, Array.getElem?_eq_getElem hk,
    Option.getD_some, hkx]

namespace Factorization

variable {p : α → Prop} {m : Matrix α} {f : Factorization α} {n k b i j : ℕ}

theorem entry_swapRows (hi : i < m.rows) (hj : j < m.cols) (a b : ℕ) :
    (swapRows m a b).entry i j = m.entry (if i = a then b else if i = b then a else i) j :=
  Matrix.entry_ofFn _ hi hj

theorem entry_eliminate (hi : i < m.rows) (hj : j < m.cols) (k : ℕ) :
    (eliminate m k).entry i j = cleared m.entry k i j :=
  Matrix.entry_ofFn _ hi hj

theorem cleared_of_lt (hi : k < i) (hj : k < j) :
    cleared m.entry k i j = m.entry i j - m.entry i k / m.entry k k * m.entry k j := by
  rw [cleared, if_neg (by omega)]
  exact if_neg (Nat.ne_of_gt hj)

structure Tainted (p : α → Prop) (n k : ℕ) (m : Matrix α) : Prop where
  rows  : m.rows = n
  cols  : m.cols = n
  entry : ∃ i j, k ≤ i ∧ i < n ∧ k ≤ j ∧ j < n ∧ p (m.entry i j)

namespace Tainted

theorem swapRows (h : Tainted p n k m) (hkb : k ≤ b) (hb : b < n) :
    Tainted p n k (swapRows m k b) where
  rows  := h.rows
  cols  := h.cols
  entry := by
    have ⟨i, j, hki, hi, hkj, hj, hp⟩ := h.entry
    let i' := if i = k then b else if i = b then k else i
    have hi' : k ≤ i' ∧ i' < n := by grind
    have hback : (if i' = k then b else if i' = b then k else i') = i := by grind
    refine ⟨i', j, hi'.1, hi'.2, hkj, hj, ?_⟩
    rw [entry_swapRows (h.rows ▸ hi'.2) (h.cols ▸ hj), hback]
    exact hp

-- Below the pivot such a number spoils the factor of its row and with it the whole row, to the
-- right of the pivot it spoils the whole column, and elsewhere it stays what it is.
theorem eliminate (hp : Absorbing p) (h : Tainted p n k m) (hpivot : ¬p (m.entry k k)) :
    Tainted p n (k + 1) (eliminate m k) where
  rows  := h.rows
  cols  := h.cols
  entry := by
    have ⟨i, j, hki, hi, hkj, hj, hij⟩ := h.entry
    have spoiled {i j : ℕ} (hki : k < i) (hi : i < n) (hkj : k < j) (hj : j < n)
        (hr : p (m.entry i j - m.entry i k / m.entry k k * m.entry k j)) :
        ∃ i j, k + 1 ≤ i ∧ i < n ∧ k + 1 ≤ j ∧ j < n ∧
          p ((Factorization.eliminate m k).entry i j) := by
      refine ⟨i, j, hki, hi, hkj, hj, ?_⟩
      rwa [entry_eliminate (h.rows ▸ hi) (h.cols ▸ hj), cleared_of_lt hki hkj]
    rcases Nat.eq_or_lt_of_le hkj with rfl | hkj
    case inl =>
      have hki : k < i := Nat.lt_of_le_of_ne hki fun heq => hpivot (heq ▸ hij)
      exact spoiled hki hi hki hi (hp.sub_right (hp.mul_left (hp.div_left hij)))
    case inr =>
      rcases Nat.eq_or_lt_of_le hki with rfl | hki
      case inl => exact spoiled hkj hj hkj hj (hp.sub_right (hp.mul_right hij))
      case inr => exact spoiled hki hi hkj hj (hp.sub_left hij)

theorem lt (h : Tainted p n k m) : k < n :=
  have ⟨_, _, hki, hi, _⟩ := h.entry
  Nat.lt_of_le_of_lt hki hi

theorem step (hp : Absorbing p) (h : Tainted p n k f.packed) (ε : α) :
    (∃ pivot, Factorization.step ε f k = .error (.singular pivot k)) ∨
      ∃ f', Factorization.step ε f k = .ok f' ∧ Tainted p n (k + 1) f'.packed := by
  have ⟨hkp, hpn⟩ := pivotRow_bounds (h.rows ▸ h.lt : k < f.packed.rows)
  rw [h.rows] at hpn
  unfold Factorization.step
  dsimp only
  split
  case isFalse => exact .inl ⟨_, rfl⟩
  case isTrue hle =>
    refine .inr ⟨_, rfl, (h.swapRows hkp hpn).eliminate hp fun hpivot => ?_⟩
    rw [entry_swapRows (h.rows ▸ h.lt) (h.cols ▸ h.lt), if_pos rfl] at hpivot
    exact hp.not_le_abs hpivot hle

-- Sooner or later no pivot is left.
theorem exists_singular (hp : Absorbing p) (h : Tainted p n k f.packed) (ε : α) :
    ∃ pivot, ∃ l < n,
      (List.range' k (n - k)).foldlM (Factorization.step ε) f = .error (.singular pivot l) := by
  induction hc : n - k generalizing k f with
  | zero => exact absurd h.lt (by omega)
  | succ c ih =>
    rw [List.range'_succ, List.foldlM_cons]
    rcases h.step hp ε with ⟨pivot, hstep⟩ | ⟨f', hstep, h'⟩
    case inl =>
      rw [hstep]
      exact ⟨pivot, k, h.lt, rfl⟩
    case inr =>
      rw [hstep]
      exact ih h' (by omega)

end Tainted

-- A matrix with an entry that is not a number is singular, whatever the pivots have to be.
theorem ofMatrix_singular_of_isNaN {a : Matrix Float} (ha : a.WellFormed) (hsquare : a.isSquare)
    (hnan : ∃ x ∈ a.data, x.isNaN) (ε : Float) :
    ∃ pivot, ∃ k < a.rows, ofMatrix ε a = .error (.singular pivot k) := by
  have ⟨x, hx, hxnan⟩ := hnan
  have ⟨i, hi, j, hj, hij⟩ := ha.exists_entry_eq hx
  have hcols : a.cols = a.rows := (beq_iff_eq.mp hsquare).symm
  have htainted : Tainted (fun x : Float => x.isNaN) a.rows 0 a :=
    ⟨rfl, hcols, i, j, Nat.zero_le i, hi, Nat.zero_le j, hcols ▸ hj, hij ▸ hxnan⟩
  rw [ofMatrix, if_pos hsquare, List.range_eq_range']
  exact htainted.exists_singular (f := ⟨a, Array.range a.rows⟩) absorbing_isNaN ε

-- The entry is in the first column and never a pivot, and the first two columns have pivots.
theorem ofMatrix_singular_of_isNaN_below :
    let a : Matrix Float := ⟨3, 3, #[4, 1, 2, 1, 2, 3, 0 / 0, 1, 5], false⟩
    a.WellFormed ∧ a.isSquare ∧ (∃ x ∈ a.data, x.isNaN) ∧
      ((List.range 2).foldlM (step 0) ⟨a, Array.range 3⟩).isOk ∧
      ∃ pivot, ∃ k < 3, ofMatrix 0 a = .error (.singular pivot k) := by
  intro a
  have ha : a.WellFormed := ⟨rfl, nofun⟩
  have hnan : ∃ x ∈ a.data, x.isNaN := ⟨0 / 0, by simp [a], by decide +kernel⟩
  refine ⟨ha, rfl, hnan, ?_, ofMatrix_singular_of_isNaN ha rfl hnan 0⟩
  subst a
  decide +kernel

end Factorization

end InfixAlgebra
