import Mathlib
import InfixAlgebra.LinearSystem.Solution
import InfixAlgebra.Proofs.Matrix.Access

namespace InfixAlgebra

variable {α : Type} [Scalar α]

namespace Factorization

structure WellFormed (n : Nat) (f : Factorization α) : Prop where
  packed : f.packed.WellFormed
  rows   : f.packed.rows = n
  cols   : f.packed.cols = n
  size   : f.order.size = n
  order  : ∀ i ∈ f.order, i < n

-- Elimination in place, with all accesses checked.

def larger? (m : Matrix α) (k p i : Nat) : Option Nat := do
  let x ← m.lookup? p k
  let y ← m.lookup? i k
  return if Scalar.lt (Scalar.abs x) (Scalar.abs y) then i else p

def pivotRow? (m : Matrix α) (k : Nat) : Option Nat :=
  (List.range' (k + 1) (m.rows - (k + 1))).foldlM (larger? m k) k

def swapEntries? (a b : Nat) (m : Matrix α) (j : Nat) : Option (Matrix α) := do
  let x ← m.lookup? a j
  let y ← m.lookup? b j
  (← m.set? a j y).set? b j x

def swapRows? (m : Matrix α) (a b : Nat) : Option (Matrix α) :=
  (List.range m.cols).foldlM (swapEntries? a b) { m with isVector := false }

def eliminateAt? (k i : Nat) (factor : α) (m : Matrix α) (j : Nat) : Option (Matrix α) := do
  m.set? i j ((← m.lookup? i j) - factor * (← m.lookup? k j))

def eliminateRow? (k : Nat) (m : Matrix α) (i : Nat) : Option (Matrix α) := do
  let factor := (← m.lookup? i k) / (← m.lookup? k k)
  (List.range' (k + 1) (m.cols - (k + 1))).foldlM (eliminateAt? k i factor) (← m.set? i k factor)

def eliminate? (m : Matrix α) (k : Nat) : Option (Matrix α) :=
  (List.range' (k + 1) (m.rows - (k + 1))).foldlM (eliminateRow? k) { m with isVector := false }

def swap? (order : Array Nat) (i j : Nat) : Option (Array Nat) :=
  if i < order.size ∧ j < order.size then some (order.swapIfInBounds i j) else none

def step? (pivotEpsilon : α) (f : Factorization α) (k : Nat) : Checked α (Factorization α) := do
  let p ← pivotRow? f.packed k
  let pivot ← f.packed.lookup? p k
  if Scalar.le pivotEpsilon (Scalar.abs pivot) then
    let packed ← eliminate? (← swapRows? f.packed k p) k
    return ⟨packed, ← swap? f.order k p⟩
  else
    throw (.singular pivot k)

def ofMatrix? (pivotEpsilon : α) (a : Matrix α) : Checked α (Factorization α) :=
  if a.isSquare then
    (List.range a.rows).foldlM (step? pivotEpsilon) ⟨a, Array.range a.rows⟩
  else
    throw (.shape (.notSquare a.shape))

-- Substitution in place.

def put? (xs : Array α) (i : Nat) (x : α) : Option (Array α) :=
  if i < xs.size then some (xs.setIfInBounds i x) else none

def forwardAt? (f : Factorization α) (b ys : Array α) (i : Nat) : Option (Array α) := do
  let known ← Matrix.sum? (List.range i) fun j => do return (← f.packed.lookup? i j) * (← ys[j]?)
  put? ys i ((← b[(← f.order[i]?)]?) - known)

def forward? (f : Factorization α) (b : Array α) : Option (Array α) :=
  (List.range f.dimension).foldlM (forwardAt? f b) (Array.replicate f.dimension 0)

def backwardAt? (f : Factorization α) (ys : Array α) (i : Nat) (xs : Array α) :
    Option (Array α) := do
  let known ← Matrix.sum? (List.range' (i + 1) (f.dimension - (i + 1))) fun j => do
    return (← f.packed.lookup? i j) * (← xs[j]?)
  put? xs i (((← ys[i]?) - known) / (← f.packed.lookup? i i))

def backward? (f : Factorization α) (ys : Array α) : Option (Array α) :=
  (List.range f.dimension).foldrM (backwardAt? f ys) (Array.replicate f.dimension 0)

def solve? (f : Factorization α) (b : List α) : Checked α (List α) :=
  if b.length = f.dimension then do
    let ys ← f.forward? b.toArray
    let xs ← f.backward? ys
    return xs.toList
  else
    throw (.shape (.constantCount f.dimension b.length))

variable {m : Matrix α} {f f' : Factorization α} {n k p a b : Nat}

theorem pivotRow?_eq (hm : m.WellFormed) (hcols : k < m.cols) (hrows : k < m.rows) :
    pivotRow? m k = some (pivotRow m k) ∧ pivotRow m k < m.rows := by
  have hloop (is : List Nat) (his : ∀ i ∈ is, i < m.rows) (p : Nat) (hp : p < m.rows) :
      is.foldlM (larger? m k) p = some (is.foldl (pivotRow.larger m k) p) ∧
        is.foldl (pivotRow.larger m k) p < m.rows := by
    induction is generalizing p with
    | nil => exact ⟨rfl, hp⟩
    | cons i is ih =>
      have hi := his i List.mem_cons_self
      have hstep : larger? m k p i = some (pivotRow.larger m k p i) := by
        rw [larger?, hm.lookup?_eq hp hcols, hm.lookup?_eq hi hcols]
        rfl
      have hlarger : pivotRow.larger m k p i < m.rows := by
        unfold pivotRow.larger
        split
        case isTrue  => exact hi
        case isFalse => exact hp
      rw [List.foldlM_cons, hstep, List.foldl_cons]
      exact ih (fun j hj => his j (List.mem_cons_of_mem i hj)) _ hlarger
  refine hloop _ (fun i hi => ?_) k hrows
  rw [List.mem_range'_1] at hi
  omega

theorem swapRows?_eq (hm : m.WellFormed) (ha : a < m.rows) (hb : b < m.rows) :
    swapRows? m a b = some (swapRows m a b) := by
  let swapped (i j : Nat) : α := m.entry (if i = a then b else if i = b then a else i) j
  -- The columns before `j` have been dealt with.
  let state (j : Nat) : Matrix α :=
    .ofFn m.rows m.cols fun i' j' => if j' < j then swapped i' j' else m.entry i' j'
  have hstart : { m with isVector := false } = state 0 := by
    rw [← hm.ofFn_entry]
    exact Matrix.ofFn_congr fun i' _ j' _ => rfl
  have hend : state m.cols = swapRows m a b :=
    Matrix.ofFn_congr fun i' _ j' hj => if_pos hj
  have hstep (j : Nat) (hj : j < m.cols) : swapEntries? a b (state j) j = some (state (j + 1)) := by
    simp only [swapEntries?, state, Matrix.lookup?_ofFn ha hj, Matrix.lookup?_ofFn hb hj,
      Matrix.set?_ofFn ha hj, Matrix.set?_ofFn hb hj, Option.bind_eq_bind, Option.bind_some]
    exact congrArg some (Matrix.ofFn_congr fun i' _ j' _ => by grind)
  rw [swapRows?, hstart, ← hend]
  exact foldlM_range_eq_some hstep

-- The rows before `i` have been dealt with, and so have the entries before `j` in row `i`.
def midwayEntry (m : Matrix α) (k i j i' j' : Nat) : α :=
  if i' < i ∨ i' = i ∧ j' < j then cleared m.entry k i' j' else m.entry i' j'

def midway (m : Matrix α) (k i j : Nat) : Matrix α :=
  .ofFn m.rows m.cols (midwayEntry m k i j)

variable {i j : Nat}

-- What is read in a round has not been overwritten, or stays as it was.
theorem eliminateAt?_midway (hk : k < m.rows) (hki : k < i) (hi : i < m.rows) (hkj : k < j)
    (hj : j < m.cols) :
    eliminateAt? k i (m.entry i k / m.entry k k) (midway m k i j) j =
      some (midway m k i (j + 1)) := by
  simp only [eliminateAt?, midway, Matrix.lookup?_ofFn hi hj, Matrix.lookup?_ofFn hk hj,
    Matrix.set?_ofFn hi hj, Option.bind_eq_bind, Option.bind_some]
  refine congrArg some (Matrix.ofFn_congr fun i' _ j' _ => ?_)
  simp only [midwayEntry, cleared]
  grind

theorem eliminateRow?_midway (hkr : k < m.rows) (hkc : k < m.cols) (hki : k < i)
    (hi : i < m.rows) : eliminateRow? k (midway m k i 0) i = some (midway m k (i + 1) 0) := by
  have hpivot : (midway m k i 0).lookup? k k = some (m.entry k k) := by
    refine (Matrix.lookup?_ofFn hkr hkc).trans (congrArg some ?_)
    simp only [midwayEntry, cleared]
    grind
  have hentry : (midway m k i 0).lookup? i k = some (m.entry i k) := by
    refine (Matrix.lookup?_ofFn hi hkc).trans (congrArg some ?_)
    simp only [midwayEntry]
    grind
  have hset : (midway m k i 0).set? i k (m.entry i k / m.entry k k) =
      some (midway m k i (k + 1)) := by
    refine (Matrix.set?_ofFn hi hkc _).trans
      (congrArg some (Matrix.ofFn_congr fun i' _ j' _ => ?_))
    simp only [midwayEntry, cleared]
    grind
  have hdone : midway m k i m.cols = midway m k (i + 1) 0 := by
    refine Matrix.ofFn_congr fun i' _ j' _ => ?_
    simp only [midwayEntry]
    grind
  have hcols : k + 1 + (m.cols - (k + 1)) = m.cols := Nat.add_sub_cancel' hkc
  have hloop := foldlM_range'_eq_some (n := m.cols - (k + 1)) fun j hkj hj =>
    eliminateAt?_midway hkr hki hi hkj (hcols ▸ hj)
  rw [hcols, hdone] at hloop
  simp only [eliminateRow?, hentry, hpivot, hset, Option.bind_eq_bind, Option.bind_some]
  exact hloop

theorem eliminate?_eq (hm : m.WellFormed) (hsquare : m.rows = m.cols) (hk : k < m.rows) :
    eliminate? m k = some (eliminate m k) := by
  have hstart : { m with isVector := false } = midway m k (k + 1) 0 := by
    rw [← hm.ofFn_entry]
    refine Matrix.ofFn_congr fun i' _ j' _ => ?_
    simp only [midwayEntry, cleared]
    grind
  have hend : midway m k m.rows 0 = eliminate m k :=
    Matrix.ofFn_congr fun i' hi j' _ => if_pos (.inl hi)
  have hrows : k + 1 + (m.rows - (k + 1)) = m.rows := Nat.add_sub_cancel' hk
  have hloop := foldlM_range'_eq_some (s := (midway m k · 0)) (n := m.rows - (k + 1))
    fun i hki hi => eliminateRow?_midway hk (hsquare ▸ hk) hki (hrows ▸ hi)
  rw [hrows, hend] at hloop
  rw [eliminate?, hstart]
  exact hloop

theorem wellFormed_swapRows : (swapRows m a b).WellFormed :=
  Matrix.wellFormed_ofFn ..

theorem wellFormed_eliminate : (eliminate m k).WellFormed :=
  Matrix.wellFormed_ofFn ..

theorem swap?_eq {order : Array Nat} (ha : a < order.size) (hb : b < order.size) :
    swap? order a b = some (order.swapIfInBounds a b) :=
  if_pos ⟨ha, hb⟩

theorem mem_of_mem_swapIfInBounds {order : Array Nat} {r : Nat}
    (hr : r ∈ order.swapIfInBounds a b) : r ∈ order := by
  rw [Array.swapIfInBounds_def] at hr
  split at hr
  case isFalse => exact hr
  case isTrue  =>
    split at hr
    case isFalse => exact hr
    case isTrue  => exact (Array.swap_perm ..).mem_iff.mp hr

namespace WellFormed

omit [Scalar α] in
theorem initial (hm : m.WellFormed) (hsquare : m.isSquare) :
    WellFormed m.rows ⟨m, Array.range m.rows⟩ where
  packed    := hm
  rows      := rfl
  cols      := (beq_iff_eq.mp hsquare).symm
  size      := Array.size_range
  order _ h := Array.mem_range.mp h

theorem run_step (hf : f.WellFormed n) (ε : α) (hk : k < n) :
    (step? ε f k).run = some (step ε f k) ∧ ∀ f', step ε f k = .ok f' → f'.WellFormed n := by
  have hkr : k < f.packed.rows := hf.rows ▸ hk
  have hkc : k < f.packed.cols := hf.cols ▸ hk
  have hsquare : f.packed.rows = f.packed.cols := hf.rows.trans hf.cols.symm
  have ⟨hpivot, hp⟩ := pivotRow?_eq hf.packed hkc hkr
  have hksize : k < f.order.size := hf.size ▸ hk
  have hpsize : pivotRow f.packed k < f.order.size := hf.size ▸ hf.rows ▸ hp
  constructor
  case left =>
    simp only [step?, step, hpivot, hf.packed.lookup?_eq hp hkc, swapRows?_eq hf.packed hkr hp,
      eliminate?_eq wellFormed_swapRows hsquare hkr, swap?_eq hksize hpsize,
      Checked.lift_some_bind]
    split <;> rfl
  case right =>
    intro f' hf'
    unfold step at hf'
    simp only at hf'
    split at hf'
    case isFalse => cases hf'
    case isTrue  =>
      cases hf'
      constructor
      case packed => exact wellFormed_eliminate
      case rows   => exact hf.rows
      case cols   => exact hf.cols
      case size   => exact Array.size_swapIfInBounds.trans hf.size
      case order  => exact fun i hi => hf.order i (mem_of_mem_swapIfInBounds hi)

theorem run_ofMatrix? {a : Matrix α} (ha : a.WellFormed) (ε : α) :
    (ofMatrix? ε a).run = some (ofMatrix ε a) ∧
      ∀ f, ofMatrix ε a = .ok f → f.WellFormed a.rows := by
  unfold ofMatrix? ofMatrix
  split
  case isFalse => exact ⟨rfl, nofun⟩
  case isTrue hsquare =>
    exact Checked.run_foldlM (P := WellFormed a.rows)
      (fun f hf k hk => hf.run_step ε (List.mem_range.mp hk)) (.initial ha hsquare)

end WellFormed

-- The numbers that have been found stand before zeros in the forward pass, and behind them in the
-- backward one.

variable {ys b : Array α}

theorem put?_append_replicate (ys : Array α) (x : α) (c : Nat) :
    put? (ys ++ Array.replicate (c + 1) 0) ys.size x = some (ys.push x ++ Array.replicate c 0) := by
  have hsize : ys.size < (ys ++ Array.replicate (c + 1) 0).size := by simp
  refine (if_pos hsize).trans (congrArg some (Array.ext' ?_))
  simp [List.replicate_succ]

theorem put?_replicate_append (xs : Array α) (x : α) (c : Nat) :
    put? (Array.replicate (c + 1) 0 ++ xs) c x = some (Array.replicate c 0 ++ (#[x] ++ xs)) := by
  have hsize : c < (Array.replicate (c + 1) 0 ++ xs).size := by simp; omega
  refine (if_pos hsize).trans (congrArg some (Array.ext' ?_))
  simp [List.replicate_succ']

def forwardUntil (f : Factorization α) (b : Array α) (i : Nat) : Array α :=
  (List.range i).foldl (forward.next f b) #[]

theorem forwardUntil_succ :
    forwardUntil f b (i + 1) = forward.next f b (forwardUntil f b i) i := by
  rw [forwardUntil, List.range_succ, List.foldl_append]
  rfl

theorem size_forwardUntil : (forwardUntil f b i).size = i := by
  induction i with
  | zero      => rfl
  | succ i ih => rw [forwardUntil_succ, forward.next, Array.size_push, ih]

theorem forwardAt?_eq (hf : f.WellFormed n) (hb : b.size = n) (hi : i < n) :
    forwardAt? f b (forwardUntil f b i ++ Array.replicate (n - i) 0) i =
      some (forwardUntil f b (i + 1) ++ Array.replicate (n - (i + 1)) 0) := by
  have hterm (j : Nat) (hj : j ∈ List.range i) :
      (do return (← f.packed.lookup? i j) *
          (← (forwardUntil f b i ++ Array.replicate (n - i) 0)[j]?)) =
        some (f.packed.entry i j * (forwardUntil f b i).getD j 0) := by
    have hj := List.mem_range.mp hj
    have hjsize : j < (forwardUntil f b i).size := by rwa [size_forwardUntil]
    rw [hf.packed.lookup?_eq (hf.rows ▸ hi) (hf.cols ▸ hj.trans hi),
      Array.getElem?_append_left hjsize, getElem?_eq_getD 0 hjsize]
    rfl
  have horder : f.order[i]? = some (f.order.getD i 0) := getElem?_eq_getD 0 (hf.size ▸ hi)
  have hr : f.order.getD i 0 < b.size := hb ▸ hf.order _ (Array.mem_of_getElem? horder)
  have hput (x : α) := put?_append_replicate (forwardUntil f b i) x (n - (i + 1))
  have hrest : n - (i + 1) + 1 = n - i := by omega
  rw [size_forwardUntil, hrest] at hput
  rw [forwardAt?, Matrix.sum?_eq hterm]
  simp only [horder, getElem?_eq_getD 0 hr, hput, Option.bind_eq_bind, Option.bind_some,
    forwardUntil_succ, forward.next]

theorem forward?_eq (hf : f.WellFormed n) (hb : b.size = n) :
    f.forward? b = some (f.forward b) := by
  have hloop := foldlM_range_eq_some fun i hi => forwardAt?_eq hf hb (i := i) hi
  rw [Nat.sub_zero, Nat.sub_self] at hloop
  rw [forward?, forward, dimension, hf.rows]
  simpa [forwardUntil] using hloop

def backwardFrom (f : Factorization α) (ys : Array α) (n i : Nat) : List α :=
  (List.range' i (n - i)).foldr (backward.next f ys) []

theorem backwardFrom_of_lt (hi : i < n) :
    backwardFrom f ys n i = backward.next f ys i (backwardFrom f ys n (i + 1)) := by
  have hrest : n - i = n - (i + 1) + 1 := by omega
  rw [backwardFrom, hrest, List.range'_succ]
  rfl

theorem length_backwardFrom : (backwardFrom f ys n i).length = n - i := by
  have hlength (is : List Nat) : (is.foldr (backward.next f ys) []).length = is.length := by
    induction is with
    | nil          => rfl
    | cons i is ih => rw [List.foldr_cons, backward.next, List.length_cons, ih, List.length_cons]
  rw [backwardFrom, hlength, List.length_range']

-- The numbers behind `i` are counted from the end of the matrix rather than from their own start.
theorem backward_next_eq {xs : List α} (hxs : xs.length = n - (i + 1)) :
    backward.next f ys i xs =
      (ys.getD i 0 - Scalar.sum ((List.range' (i + 1) (n - (i + 1))).map fun j =>
        f.packed.entry i j * xs.getD (j - (i + 1)) 0)) / f.packed.entry i i :: xs := by
  refine congrArg (fun known => (ys.getD i 0 - Scalar.sum known) / f.packed.entry i i :: xs) ?_
  apply List.ext_getElem
  case hl => simp [hxs]
  case h  => simp +contextual [hxs]

theorem backwardAt?_eq (hf : f.WellFormed n) (hys : ys.size = n) (hi : i < n) :
    backwardAt? f ys i (Array.replicate (i + 1) 0 ++ (backwardFrom f ys n (i + 1)).toArray) =
      some (Array.replicate i 0 ++ (backwardFrom f ys n i).toArray) := by
  let xs := backwardFrom f ys n (i + 1)
  have hlength : xs.length = n - (i + 1) := length_backwardFrom
  have hir : i < f.packed.rows := hf.rows ▸ hi
  have hic : i < f.packed.cols := hf.cols ▸ hi
  have hn : f.dimension = n := hf.rows
  have hterm (j : Nat) (hj : j ∈ List.range' (i + 1) (n - (i + 1))) :
      (do return (← f.packed.lookup? i j) *
          (← (Array.replicate (i + 1) 0 ++ xs.toArray)[j]?)) =
        some (f.packed.entry i j * xs.getD (j - (i + 1)) 0) := by
    have hj := List.mem_range'_1.mp hj
    have hjc : j < f.packed.cols := by
      rw [hf.cols]
      omega
    have hjx : j - (i + 1) < xs.length := by omega
    have hx : (Array.replicate (i + 1) 0 ++ xs.toArray)[j]? = some (xs.getD (j - (i + 1)) 0) := by
      rw [Array.getElem?_append_right (by simpa using hj.left)]
      simp [hjx]
    rw [hf.packed.lookup?_eq hir hjc, hx]
    rfl
  rw [backwardAt?, hn, Matrix.sum?_eq hterm, backwardFrom_of_lt hi, backward_next_eq hlength]
  simp only [getElem?_eq_getD 0 (hys ▸ hi : i < ys.size), hf.packed.lookup?_eq hir hic,
    Option.bind_eq_bind, Option.bind_some]
  refine (put?_replicate_append xs.toArray _ i).trans ?_
  simp [xs]

theorem backward?_eq (hf : f.WellFormed n) (hys : ys.size = n) :
    f.backward? ys = some (f.backward ys).toArray := by
  have hloop := foldrM_range_eq_some
    (s := fun i => Array.replicate i 0 ++ (backwardFrom f ys n i).toArray)
    fun i hi => backwardAt?_eq hf hys hi
  have hn : f.dimension = n := hf.rows
  rw [backward?, backward, hn]
  simpa [backwardFrom, List.range_eq_range'] using hloop

theorem run_solve? (hf : f.WellFormed n) (b : List α) : (f.solve? b).run = some (f.solve b) := by
  unfold solve? solve
  split
  case isFalse => rfl
  case isTrue hb =>
    have hn : f.dimension = n := hf.rows
    have hys : (f.forward b.toArray).size = n := by
      rw [forward, hn]
      exact size_forwardUntil
    rw [forward?_eq hf (hb.trans hn), Checked.lift_some_bind, backward?_eq hf hys]
    rfl

end Factorization

namespace Matrix

def solve? (config : Config α) (a : Matrix α) (b : List α) : Checked α (List α) := do
  if !a.isSquare then
    throw (.shape (.notSquare a.shape))
  if b.length ≠ a.rows then
    throw (.shape (.constantCount a.rows b.length))
  let f ← Factorization.ofMatrix? config.pivotEpsilon a
  let xs ← f.solve? b
  return xs.map (Solution.snap config.snapTolerance)

theorem run_solve? {a : Matrix α} (ha : a.WellFormed) (config : Config α) (b : List α) :
    (a.solve? config b).run = some (a.solve config b) := by
  have ⟨hrun, hf⟩ := Factorization.WellFormed.run_ofMatrix? ha config.pivotEpsilon
  unfold solve? solve
  cases a.isSquare with
  | false => rfl
  | true  =>
    by_cases hb : b.length ≠ a.rows
    case pos =>
      simp only [if_pos hb]
      rfl
    case neg =>
      simp only [if_neg hb]
      refine Checked.run_bind hrun fun f hok => ?_
      exact Checked.run_bind (Factorization.run_solve? (hf f hok) b) fun xs _ => rfl

end Matrix

end InfixAlgebra
