import Mathlib
import InfixAlgebra.Proofs.Matrix.WellFormed

namespace InfixAlgebra

variable {α β : Type}

theorem getElem?_eq_getD {as : Array α} {i : Nat} (a : α) (hi : i < as.size) :
    as[i]? = some (as.getD i a) := by
  rw [Array.getD_eq_getD_getElem?, Array.getElem?_eq_getElem hi, Option.getD_some]

theorem mapM_eq_some {f : α → Option β} {g : α → β} {as : List α} (h : ∀ a ∈ as, f a = some (g a)) :
    as.mapM f = some (as.map g) := by
  induction as with
  | nil => rfl
  | cons a as ih =>
    rw [List.mapM_cons, h a List.mem_cons_self, ih fun b hb => h b (List.mem_cons_of_mem a hb)]
    rfl

-- A loop over consecutive numbers of which each round is known.
theorem foldlM_range'_eq_some {step : β → Nat → Option β} {s : Nat → β} {a n : Nat}
    (h : ∀ k, a ≤ k → k < a + n → step (s k) k = some (s (k + 1))) :
    (List.range' a n).foldlM step (s a) = some (s (a + n)) := by
  induction n generalizing a with
  | zero      => rfl
  | succ n ih =>
    rw [List.range'_succ, List.foldlM_cons, h a (Nat.le_refl a) (by omega)]
    refine (ih fun k hk hn => h k (by omega) (by omega)).trans ?_
    rw [Nat.add_right_comm, Nat.add_assoc]

theorem foldlM_range_eq_some {step : β → Nat → Option β} {s : Nat → β} {n : Nat}
    (h : ∀ k < n, step (s k) k = some (s (k + 1))) :
    (List.range n).foldlM step (s 0) = some (s n) := by
  rw [List.range_eq_range', foldlM_range'_eq_some fun k _ hk => h k (by omega), Nat.zero_add]

theorem foldrM_range_eq_some {step : Nat → β → Option β} {s : Nat → β} {n : Nat}
    (h : ∀ k < n, step k (s (k + 1)) = some (s k)) :
    (List.range n).foldrM step (s n) = some (s 0) := by
  induction n with
  | zero      => rfl
  | succ n ih =>
    rw [List.range_succ, List.foldrM_append, List.foldrM_cons, List.foldrM_nil]
    have hlast : (do step n (← pure (s (n + 1)))) = some (s n) := h n (Nat.lt_succ_self n)
    rw [hlast]
    exact ih fun k hk => h k (Nat.lt_succ_of_lt hk)

-- Computations that also come to nothing when an access is out of range.
abbrev Checked (α : Type) := ExceptT (Error α) Option

namespace Checked

variable {γ : Type} {x : Checked α β} {y : Except (Error α) β} {f : β → Checked α γ}
  {g : β → Except (Error α) γ}

theorem lift_some_bind (b : β) (f : β → Checked α γ) :
    (liftM (some b) : Checked α β) >>= f = f b :=
  rfl

theorem run_bind (h : x.run = some y) (hf : ∀ b, y = .ok b → (f b).run = some (g b)) :
    (x >>= f).run = some (y >>= g) := by
  rw [ExceptT.run_bind, h]
  cases y with
  | error e => rfl
  | ok b    => exact hf b rfl

-- A loop whose rounds are in range as long as `P` holds, which they keep up.
theorem run_foldlM {P : β → Prop} {step? : β → Nat → Checked α β}
    {step : β → Nat → Except (Error α) β} {ks : List Nat} {b : β}
    (hstep : ∀ b, P b → ∀ k ∈ ks, (step? b k).run = some (step b k) ∧
      ∀ b', step b k = .ok b' → P b') (hb : P b) :
    (ks.foldlM step? b).run = some (ks.foldlM step b) ∧
      ∀ b', ks.foldlM step b = .ok b' → P b' := by
  induction ks generalizing b with
  | nil =>
    refine ⟨rfl, fun b' hb' => ?_⟩
    cases hb'
    exact hb
  | cons k ks ih =>
    have ⟨hrun, hkeep⟩ := hstep b hb k List.mem_cons_self
    have hrest (c : β) (hc : step b k = .ok c) :=
      ih (fun b' hb' k' hk' => hstep b' hb' k' (List.mem_cons_of_mem k hk')) (hkeep c hc)
    rw [List.foldlM_cons, List.foldlM_cons]
    refine ⟨run_bind hrun fun c hc => (hrest c hc).left, fun b' hb' => ?_⟩
    have ⟨c, hc, hb'⟩ := exists_of_bind_eq_ok hb'
    exact (hrest c hc).right b' hb'

end Checked

namespace Matrix

-- Accesses to the stored entries that come to nothing out of range.

def lookup? (m : Matrix α) (i j : Nat) : Option α :=
  m.data[i * m.cols + j]?

def set? (m : Matrix α) (i j : Nat) (x : α) : Option (Matrix α) :=
  if i * m.cols + j < m.data.size then
    some { m with data := m.data.setIfInBounds (i * m.cols + j) x }
  else
    none

def row? (m : Matrix α) (i : Nat) : Option (List α) :=
  if (i + 1) * m.cols ≤ m.data.size then
    some (m.data.extract (i * m.cols) ((i + 1) * m.cols)).toList
  else
    none

variable {rows cols i j : Nat} {f g : Nat → Nat → α} {m : Matrix α}

-- Where the entries are.

theorem index_lt (hi : i < rows) (hj : j < cols) : i * cols + j < rows * cols :=
  calc i * cols + j < i * cols + cols := Nat.add_lt_add_left hj _
    _ = (i + 1) * cols := (Nat.succ_mul i cols).symm
    _ ≤ rows * cols := Nat.mul_le_mul_right cols hi

theorem index_eq_iff {k : Nat} (hj : j < cols) :
    i * cols + j = k ↔ k / cols = i ∧ k % cols = j := by
  constructor
  case mp =>
    rintro rfl
    rw [Nat.mul_comm, Nat.mul_add_div (Nat.zero_lt_of_lt hj), Nat.mul_add_mod, Nat.div_eq_of_lt hj,
      Nat.mod_eq_of_lt hj]
    exact ⟨rfl, rfl⟩
  case mpr =>
    rintro ⟨rfl, rfl⟩
    exact Nat.div_add_mod' k cols

theorem ofFn_congr (h : ∀ i < rows, ∀ j < cols, f i j = g i j) :
    ofFn rows cols f = ofFn rows cols g := by
  have hentry (k : Fin (rows * cols)) : f (k / cols) (k % cols) = g (k / cols) (k % cols) :=
    have hcols : 0 < cols := Nat.pos_of_mul_pos_left k.pos
    h _ ((Nat.div_lt_iff_lt_mul hcols).mpr k.isLt) _ (Nat.mod_lt _ hcols)
  simp only [ofFn, hentry]

theorem lookup?_ofFn (hi : i < rows) (hj : j < cols) :
    (ofFn rows cols f).lookup? i j = some (f i j) := by
  have ⟨hdiv, hmod⟩ := (index_eq_iff (i := i) hj).mp rfl
  simp [lookup?, ofFn, index_lt hi hj, hdiv, hmod]

theorem set?_ofFn (hi : i < rows) (hj : j < cols) (x : α) :
    (ofFn rows cols f).set? i j x =
      some (ofFn rows cols fun i' j' => if i' = i ∧ j' = j then x else f i' j') := by
  have hk : i * cols + j < (ofFn rows cols f).data.size := Array.size_ofFn ▸ index_lt hi hj
  refine (if_pos hk).trans (congrArg some ?_)
  simp only [ofFn, Matrix.mk.injEq, true_and, and_true]
  ext k h₁ h₂
  case h₁ => simp
  case h₂ =>
    rw [Array.getElem_setIfInBounds (by simpa using h₂), Array.getElem_ofFn, Array.getElem_ofFn]
    simp only [index_eq_iff hj]

theorem row?_ofFn (hi : i < rows) :
    (ofFn rows cols f).row? i = some ((List.range cols).map (f i)) := by
  have hsize : (i + 1) * cols ≤ (ofFn rows cols f).data.size :=
    Array.size_ofFn ▸ Nat.mul_le_mul_right cols hi
  refine (if_pos hsize).trans (congrArg some ?_)
  apply List.ext_getElem
  case hl =>
    have hrow : i * cols + cols ≤ rows * cols := Nat.succ_mul i cols ▸ Nat.mul_le_mul_right cols hi
    simp only [ofFn, Array.length_toList, Array.size_extract, Array.size_ofFn, List.length_map,
      List.length_range, Nat.succ_mul]
    omega
  case h =>
    intro j h₁ h₂
    have hj : j < cols := by simpa using h₂
    have ⟨hdiv, hmod⟩ := (index_eq_iff (i := i) hj).mp rfl
    simp [ofFn, hdiv, hmod]

section Stored

variable [Zero α]

theorem entry_ofFn (f : Nat → Nat → α) (hi : i < rows) (hj : j < cols) :
    (ofFn rows cols f).entry i j = f i j := by
  have h : (ofFn rows cols f).data[i * cols + j]? = some (f i j) := lookup?_ofFn hi hj
  rw [entry, Array.getD_eq_getD_getElem?]
  exact congrArg (·.getD 0) h

theorem WellFormed.ofFn_entry (h : m.WellFormed) :
    ofFn m.rows m.cols m.entry = { m with isVector := false } := by
  simp only [ofFn, Matrix.mk.injEq, true_and, and_true]
  ext k h₁ h₂
  case h₁ => simp [h.size]
  case h₂ => simp [entry, Nat.div_add_mod', h₂]

theorem WellFormed.lookup?_eq (h : m.WellFormed) (hi : i < m.rows) (hj : j < m.cols) :
    m.lookup? i j = some (m.entry i j) :=
  calc m.lookup? i j = (ofFn m.rows m.cols m.entry).lookup? i j := by rw [h.ofFn_entry]; rfl
    _ = some (m.entry i j) := lookup?_ofFn hi hj

omit [Zero α] in
theorem WellFormed.set?_eq (h : m.WellFormed) (hi : i < m.rows) (hj : j < m.cols) (x : α) :
    m.set? i j x = some { m with data := m.data.setIfInBounds (i * m.cols + j) x } :=
  if_pos (h.size ▸ index_lt hi hj)

theorem WellFormed.row?_eq (h : m.WellFormed) (hi : i < m.rows) : m.row? i = some (m.row i) :=
  calc m.row? i = (ofFn m.rows m.cols m.entry).row? i := by rw [h.ofFn_entry]; rfl
    _ = some (m.row i) := row?_ofFn hi

end Stored

-- Products that check all accesses.

variable [Scalar α]

def sum? (ks : List Nat) (f : Nat → Option α) : Option α :=
  Scalar.sum <$> ks.mapM f

def fillRow? (cols : Nat) (f : Nat → Nat → Option α) (m : Matrix α) (i : Nat) : Option (Matrix α) :=
  (List.range cols).foldlM (fun m j => do m.set? i j (← f i j)) m

-- The matrix with the entry `f i j` in row `i` and column `j`, where the entries take the place of
-- zeros one by one.
def fill? (rows cols : Nat) (f : Nat → Nat → Option α) : Option (Matrix α) :=
  (List.range rows).foldlM (fillRow? cols f) (ofFn rows cols fun _ _ => 0)

def mul? (a b : Matrix α) : Checked α (Matrix α) :=
  if a.cols = b.rows then do
    let product ← fill? a.rows b.cols fun i j =>
      sum? (List.range a.cols) fun k => do return (← a.lookup? i k) * (← b.lookup? k j)
    return { product with isVector := b.isVector }
  else
    throw (.shape (.innerExtent a.shape b.shape))

def rowMul? (v b : Matrix α) : Checked α (Matrix α) :=
  if v.rows = b.rows then do
    let sums ← liftM <| (List.range b.cols).mapM fun j =>
      sum? (List.range b.rows) fun k => do return (← v.data[k]?) * (← b.lookup? k j)
    return ofVector sums
  else
    throw (.shape (.rowLength b.rows v.shape))

theorem sum?_eq {ks : List Nat} {f : Nat → Option α} {g : Nat → α}
    (h : ∀ k ∈ ks, f k = some (g k)) : sum? ks f = some (Scalar.sum (ks.map g)) := by
  rw [sum?, mapM_eq_some h]
  rfl

theorem fill?_eq {f : Nat → Nat → Option α} {g : Nat → Nat → α}
    (h : ∀ i < rows, ∀ j < cols, f i j = some (g i j)) :
    fill? rows cols f = some (ofFn rows cols g) := by
  -- The rows above `i` are done, and so are the first `j` entries of row `i`.
  let filled (i j : Nat) : Matrix α :=
    ofFn rows cols fun i' j' => if i' < i ∨ i' = i ∧ j' < j then g i' j' else 0
  have hcell (i : Nat) (hi : i < rows) (j : Nat) (hj : j < cols) :
      (do (filled i j).set? i j (← f i j)) = some (filled i (j + 1)) := by
    rw [h i hi j hj]
    refine (set?_ofFn hi hj _).trans (congrArg some (ofFn_congr fun i' _ j' _ => ?_))
    grind
  have hrow (i : Nat) (hi : i < rows) :
      fillRow? cols f (filled i 0) i = some (filled (i + 1) 0) := by
    refine (foldlM_range_eq_some (s := filled i) (hcell i hi)).trans (congrArg some ?_)
    exact ofFn_congr fun i' _ j' hj => by grind
  have hnone : filled 0 0 = ofFn rows cols fun _ _ => 0 :=
    ofFn_congr fun i' _ j' _ => by grind
  have hall : filled rows 0 = ofFn rows cols g :=
    ofFn_congr fun i' hi j' _ => if_pos (.inl hi)
  rw [fill?, ← hnone, ← hall]
  exact foldlM_range_eq_some (s := (filled · 0)) hrow

theorem run_mul? {a b : Matrix α} (ha : a.WellFormed) (hb : b.WellFormed) :
    (a.mul? b).run = some (a.mul b) := by
  unfold mul? mul
  split
  case isFalse => rfl
  case isTrue heq =>
    let term (i j k : Nat) : α := a.entry i k * b.entry k j
    have hterm (i : Nat) (hi : i < a.rows) (j : Nat) (hj : j < b.cols) (k : Nat)
        (hk : k ∈ List.range a.cols) :
        (do return (← a.lookup? i k) * (← b.lookup? k j)) = some (term i j k) := by
      have hk := List.mem_range.mp hk
      rw [ha.lookup?_eq hi hk, hb.lookup?_eq (heq ▸ hk) hj]
      rfl
    rw [fill?_eq fun i hi j hj => sum?_eq (hterm i hi j hj)]
    rfl

-- A vector has an entry for each of its rows.
theorem run_rowMul? {v b : Matrix α} (hv : v.WellFormed) (hb : b.WellFormed)
    (hvector : v.isVector) : (v.rowMul? b).run = some (v.rowMul b) := by
  unfold rowMul? rowMul
  split
  case isFalse => rfl
  case isTrue heq =>
    have hsize : v.data.size = b.rows := by rw [hv.size, hv.vector hvector, Nat.mul_one, heq]
    let term (j k : Nat) : α := v.data.getD k 0 * b.entry k j
    have hterm (j : Nat) (hj : j ∈ List.range b.cols) (k : Nat) (hk : k ∈ List.range b.rows) :
        (do return (← v.data[k]?) * (← b.lookup? k j)) = some (term j k) := by
      have hk := List.mem_range.mp hk
      rw [hb.lookup?_eq hk (List.mem_range.mp hj), getElem?_eq_getD 0 (hsize ▸ hk)]
      rfl
    rw [mapM_eq_some fun j hj => sum?_eq (hterm j hj)]
    rfl

end Matrix

namespace Value

variable [Scalar α] {v w : Value α}

def mul? : Value α → Value α → Checked α (Value α)
  | matrix m, matrix n =>
    match m.isVector, n.isVector with
    | true, true  => ExceptT.mk (some (scalar <$> m.dot n))
    | true, false => matrix <$> m.rowMul? n
    | false, _    => matrix <$> m.mul? n
  | v, w => ExceptT.mk (some (v.mul w))

theorem run_mul? (hv : v.WellFormed) (hw : w.WellFormed) : (v.mul? w).run = some (v.mul w) := by
  cases v with
  | scalar x => rfl
  | matrix m =>
    cases w with
    | scalar y => rfl
    | matrix n =>
      simp only [mul?, mul]
      cases hm : m.isVector with
      | true =>
        cases n.isVector with
        | true  => rfl
        | false =>
          show (matrix <$> m.rowMul? n).run = some (matrix <$> m.rowMul n)
          rw [ExceptT.run_map, Matrix.run_rowMul? hv hw hm]
          rfl
      | false =>
        show (matrix <$> m.mul? n).run = some (matrix <$> m.mul n)
        rw [ExceptT.run_map, Matrix.run_mul? hv hw]
        rfl

end Value

end InfixAlgebra
