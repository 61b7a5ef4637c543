import Mathlib
import InfixAlgebra.Proofs.Except
import InfixAlgebra.Value

namespace InfixAlgebra

variable {α : Type}

namespace Matrix

variable {m a b : Matrix α}

-- Every way to make a matrix.

theorem wellFormed_ofFn (rows cols : Nat) (f : Nat → Nat → α) : (ofFn rows cols f).WellFormed where
  size   := Array.size_ofFn
  vector := nofun

theorem wellFormed_ofVector (xs : List α) : (ofVector xs).WellFormed where
  size     := (Nat.mul_one xs.length).symm
  vector _ := rfl

theorem wellFormed_of_ofRows {rows : List (List α)} (h : ofRows rows = .ok m) : m.WellFormed := by
  unfold ofRows at h
  simp only at h
  split at h
  case h_1       => cases h
  case h_2 hfind =>
    cases h
    have hlength : ∀ row ∈ rows, row.length = (rows.head?.map List.length).getD 0 := by
      intro row hrow
      rw [← List.zipIdx_map_fst 0 rows, List.mem_map] at hrow
      have ⟨_, hmem, heq⟩ := hrow
      exact heq ▸ by simpa using List.find?_eq_none.mp hfind _ hmem
    refine ⟨?_, nofun⟩
    rw [List.size_toArray, List.length_flatten, List.map_eq_replicate_iff.mpr hlength,
      List.sum_replicate, smul_eq_mul]

theorem wellFormed_of_ofData {d : MatrixData α} (h : ofData d = .ok m) : m.WellFormed := by
  cases d with
  | vector xs => cases h; exact wellFormed_ofVector xs
  | grid rows => exact wellFormed_of_ofRows h

theorem WellFormed.map (h : m.WellFormed) (f : α → α) : (m.map f).WellFormed where
  size   := Array.size_map.trans h.size
  vector := h.vector

section Arithmetic

variable [Scalar α]

theorem WellFormed.scale (h : m.WellFormed) (x : α) : (m.scale x).WellFormed :=
  h.map (· * x)

theorem WellFormed.add (ha : a.WellFormed) (hb : b.WellFormed) (h : a.add b = .ok m) :
    m.WellFormed := by
  unfold Matrix.add at h
  split at h
  case isFalse => cases h
  case isTrue heq =>
    cases h
    constructor
    case size =>
      rw [Array.size_zipWith, ha.size, hb.size, heq.1, heq.2]
      exact Nat.min_self _
    case vector => exact fun hv => ha.vector (Bool.and_elim_left hv)

-- A vector on the right makes the product a column.
theorem WellFormed.mul (hb : b.WellFormed) (h : a.mul b = .ok m) : m.WellFormed := by
  unfold Matrix.mul at h
  split at h
  case isFalse => cases h
  case isTrue  =>
    cases h
    exact ⟨Array.size_ofFn, hb.vector⟩

theorem wellFormed_of_rowMul (h : a.rowMul b = .ok m) : m.WellFormed := by
  unfold rowMul at h
  split at h
  case isFalse => cases h
  case isTrue  =>
    cases h
    exact wellFormed_ofVector _

end Arithmetic

end Matrix

namespace Value

def WellFormed : Value α → Prop
  | scalar _ => True
  | matrix m => m.WellFormed

variable {u v w : Value α}

theorem WellFormed.map (h : v.WellFormed) (f : α → α) : (v.map f).WellFormed := by
  cases v with
  | scalar x => trivial
  | matrix m => exact Matrix.WellFormed.map h f

variable [Scalar α]

theorem WellFormed.add (hv : v.WellFormed) (hw : w.WellFormed) (h : v.add w = .ok u) :
    u.WellFormed := by
  cases v with
  | scalar x =>
    cases w with
    | scalar y => cases h; trivial
    | matrix n => cases h; exact Matrix.WellFormed.map hw _
  | matrix m =>
    cases w with
    | scalar y => cases h; exact Matrix.WellFormed.map hv _
    | matrix n =>
      have ⟨_, hadd, hu⟩ := exists_of_map_eq_ok h
      exact hu ▸ Matrix.WellFormed.add hv hw hadd

theorem WellFormed.mul (hv : v.WellFormed) (hw : w.WellFormed) (h : v.mul w = .ok u) :
    u.WellFormed := by
  cases v with
  | scalar x =>
    cases w with
    | scalar y => cases h; trivial
    | matrix n => cases h; exact Matrix.WellFormed.scale hw x
  | matrix m =>
    cases w with
    | scalar y => cases h; exact Matrix.WellFormed.scale hv y
    | matrix n =>
      unfold Value.mul at h
      simp only at h
      split at h
      · have ⟨_, _, hu⟩ := exists_of_map_eq_ok h
        exact hu ▸ trivial
      · have ⟨_, hmul, hu⟩ := exists_of_map_eq_ok h
        exact hu ▸ Matrix.wellFormed_of_rowMul hmul
      · have ⟨_, hmul, hu⟩ := exists_of_map_eq_ok h
        exact hu ▸ Matrix.WellFormed.mul hw hmul

-- No operator takes well-formed values to anything else.
theorem WellFormed.combine {op : Operator} (hv : v.WellFormed) (hw : w.WellFormed)
    (h : v.combine op w = .ok u) : u.WellFormed := by
  unfold Value.combine at h
  split at h
  case h_1 => cases h; trivial
  case h_2 => exact hv.add hw h
  case h_3 => exact hv.add (hw.map _) h
  case h_4 => exact hv.mul hw h
  case h_5 => cases h; exact hv.map _
  case h_6 => cases h

end Value

end InfixAlgebra
