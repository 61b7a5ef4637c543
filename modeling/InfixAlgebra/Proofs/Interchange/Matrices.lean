import InfixAlgebra.Proofs.Interchange.Numbers
import InfixAlgebra.Proofs.Matrix.Access

namespace InfixAlgebra

namespace Matrix

variable {α : Type} [Zero α] {m : Matrix α} {n : Nat}

-- The rows of a matrix hold its entries one after the other.

theorem length_row (m : Matrix α) (i : Nat) : (m.row i).length = m.cols := by
  simp [row]

theorem row_eq (hm : m.WellFormed) (hn : n < m.rows) :
    m.row n = (m.data.extract (n * m.cols) ((n + 1) * m.cols)).toList := by
  have hrow := hm.row?_eq hn
  unfold row? at hrow
  split at hrow
  case isTrue  => exact (Option.some.inj hrow).symm
  case isFalse => cases hrow

theorem flatten_rows (hm : m.WellFormed) (hn : n ≤ m.rows) :
    ((List.range n).map m.row).flatten = (m.data.extract 0 (n * m.cols)).toList := by
  induction n with
  | zero => simp
  | succ n ih =>
    have hle : n * m.cols ≤ (n + 1) * m.cols := Nat.mul_le_mul_right _ (Nat.le_succ n)
    rw [List.range_succ, List.map_append, List.flatten_append, ih (by omega), List.map_singleton,
      List.flatten_singleton, row_eq hm hn, ← Array.toList_append,
      Array.extract_append_extract, Nat.max_eq_right hle, Nat.zero_min]

theorem flatten_toRows (hm : m.WellFormed) : m.toRows.flatten = m.data.toList := by
  rw [toRows, flatten_rows hm (Nat.le_refl _), ← hm.size, Array.extract_size]

omit [Zero α] in
theorem ofVector_toList (hm : m.WellFormed) (hvector : m.isVector) :
    ofVector m.data.toList = m := by
  have hcols := hm.vector hvector
  have hsize := hm.size
  rw [hcols, Nat.mul_one] at hsize
  obtain ⟨rows, cols, data, isVector⟩ := m
  simp_all [ofVector]

-- No row is shorter or longer than the first one.
theorem ofRows_toRows (hm : m.WellFormed) (hrows : 0 < m.rows) :
    ofRows m.toRows = .ok { m with isVector := false } := by
  have hlength : ∀ row ∈ m.toRows, row.length = m.cols := by
    simp [toRows, length_row]
  have hhead : (m.toRows.head?.map List.length).getD 0 = m.cols := by
    obtain ⟨k, hk⟩ : ∃ k, m.rows = k + 1 := ⟨m.rows - 1, by omega⟩
    simp [toRows, hk, List.range_succ_eq_map, length_row]
  unfold ofRows
  simp only [hhead]
  split
  case h_1 row i hfind =>
    have hrow := hlength row (List.fst_mem_of_mem_zipIdx (List.mem_of_find?_eq_some hfind))
    exact absurd hrow (by simpa using List.find?_some hfind)
  case h_2 =>
    have hcount : m.toRows.length = m.rows := by simp [toRows]
    rw [flatten_toRows hm, hcount]
    rfl

end Matrix

namespace Json

variable {α : Type} [Scalar α] [NumberText α]

-- A number that is the same when it has been written and read.
def Survives (x : α) : Prop :=
  (ofNumber x).number? = some x

theorem list?_ofNumbers {xs : List α} (h : ∀ x ∈ xs, Survives x) :
    (array (xs.map ofNumber)).list? number? = some xs := by
  rw [list?, List.mapM_map]
  exact (mapM_eq_some h).trans (congrArg some (List.map_id _))

theorem list?_ofNumberLists {rows : List (List α)} (h : ∀ row ∈ rows, ∀ x ∈ row, Survives x) :
    (array (rows.map fun row => array (row.map ofNumber))).list? (·.list? number?) = some rows := by
  rw [list?, List.mapM_map]
  exact (mapM_eq_some fun row hrow => list?_ofNumbers (h row hrow)).trans
    (congrArg some (List.map_id _))

-- A list of lists is no list of numbers, unless it is empty.
theorem list?_ofNumberLists_eq_none {rows : List (List α)} (h : rows ≠ []) :
    (array (rows.map fun row => array (row.map ofNumber))).list? (number? : Json → Option α) =
      none := by
  cases rows with
  | nil         => exact absurd rfl h
  | cons row rs => simp [list?, number?]

end Json

namespace Matrix

section Data

variable {α : Type} [Scalar α] [NumberText α] {m : Matrix α}

theorem ofData_of_toJson (hm : m.WellFormed) (hrows : m.isVector ∨ 0 < m.rows)
    (h : ∀ x ∈ m.data.toList, Json.Survives x) :
    ∃ d, MatrixData.ofJson? m.toJson = some d ∧ ofData d = .ok m := by
  unfold toJson MatrixData.ofJson?
  split
  case isTrue hvector =>
    refine ⟨.vector m.data.toList, ?_, ?_⟩
    · rw [Json.list?_ofNumbers h]
      rfl
    · rw [ofData, ofVector_toList hm hvector]
      rfl
  case isFalse hgrid =>
    have hpos : 0 < m.rows := hrows.resolve_left hgrid
    have hne : m.toRows ≠ [] := by simpa [toRows] using hpos.ne'
    have hentries (row : List α) (hrow : row ∈ m.toRows) (x : α) (hx : x ∈ row) : Json.Survives x :=
      h x (flatten_toRows hm ▸ List.mem_flatten_of_mem hrow hx)
    refine ⟨.grid m.toRows, ?_, ?_⟩
    · rw [Json.list?_ofNumberLists_eq_none hne, Json.list?_ofNumberLists hentries]
      rfl
    · rw [ofData, ofRows_toRows hm hpos, ← Bool.eq_false_of_not_eq_true hgrid]

end Data

variable {m : Matrix Float}

theorem wellSpelled_toJson (m : Matrix Float) : m.toJson.WellSpelled := by
  unfold toJson
  split
  case isTrue =>
    refine .array fun v hv => ?_
    have ⟨x, _, hx⟩ := List.mem_map.mp hv
    exact hx ▸ Json.wellSpelled_ofNumber x
  case isFalse =>
    refine .array fun v hv => ?_
    have ⟨row, _, hrow⟩ := List.mem_map.mp hv
    refine hrow ▸ .array fun v hv => ?_
    have ⟨x, _, hx⟩ := List.mem_map.mp hv
    exact hx ▸ Json.wellSpelled_ofNumber x

-- A matrix is what is read from its text, on one line or on many. Only where there are no rows,
-- a grid cannot be told from an empty vector.
theorem ofData_of_text (hm : m.WellFormed) (hrows : m.isVector ∨ 0 < m.rows)
    (hfinite : ∀ x ∈ m.data.toList, x.isFinite)
    (hsurvives : ∀ x ∈ m.data.toList, x.isFinite → Json.Survives x) {text : String}
    (htext : text = m.toJson.compact ∨ text = m.toJson.pretty) :
    ∃ d, (Json.parse? text).bind MatrixData.ofJson? = some d ∧ ofData d = .ok m := by
  have hparse : Json.parse? text = some m.toJson := by
    rcases htext with rfl | rfl
    case inl => exact Json.parse?_compact m.wellSpelled_toJson
    case inr => exact Json.parse?_pretty m.wellSpelled_toJson
  rw [hparse]
  exact ofData_of_toJson hm hrows fun x hx => hsurvives x hx (hfinite x hx)

-- A vector, a column and rows without entries.
theorem ofData_of_text_of_shapes :
    let v : Matrix Float := ofVector [0.1, -5e-324]
    let c : Matrix Float := ⟨2, 1, #[0.1, -5e-324], false⟩
    let e : Matrix Float := ⟨2, 0, #[], false⟩
    (∃ d, (Json.parse? v.toJson.compact).bind MatrixData.ofJson? = some d ∧ ofData d = .ok v) ∧
      (∃ d, (Json.parse? c.toJson.pretty).bind MatrixData.ofJson? = some d ∧ ofData d = .ok c) ∧
      ∃ d, (Json.parse? e.toJson.compact).bind MatrixData.ofJson? = some d ∧ ofData d = .ok e := by
  intro v c e
  have hfinite : ∀ x ∈ [(0.1 : Float), -5e-324], x.isFinite := by decide +kernel
  have hsurvives : ∀ x ∈ [(0.1 : Float), -5e-324], x.isFinite → Json.Survives x := by
    simp only [Json.Survives]
    decide +kernel
  refine ⟨?_, ?_, ?_⟩
  · exact ofData_of_text (wellFormed_ofVector _) (.inl rfl) hfinite hsurvives (.inl rfl)
  · exact ofData_of_text ⟨rfl, by simp [c]⟩ (.inr (by simp [c])) hfinite hsurvives (.inr rfl)
  · exact ofData_of_text ⟨rfl, by simp [e]⟩ (.inr (by simp [e])) (by simp [e]) (by simp [e])
      (.inl rfl)

end Matrix

end InfixAlgebra
