import Mathlib
import InfixAlgebra.Proofs.Exact.Rational
import InfixAlgebra.Proofs.Matrix.Tables

namespace InfixAlgebra

open Exact

inductive Agree {α β : Type} : Except (Error α) β → Except (Error α) β → Prop
  | value (b : β) : Agree (.ok b) (.ok b)
  | shape (e e' : ShapeFault) : Agree (.error (.shape e)) (.error (.shape e'))

structure YieldsIf {α β : Type} (x : Except (Error α) β) (fits : Prop) (v : β) : Prop where
  value : fits → x = .ok v
  shape : ¬fits → ∃ e, x = .error (.shape e)

namespace YieldsIf

variable {α β γ : Type} {x y : Except (Error α) β} {f : β → Except (Error α) γ} {p q : Prop}
  {v w : β} {u : γ}

theorem always (h : x = .ok v) : YieldsIf x True v where
  value _ := h
  shape h := absurd trivial h

theorem bind (hx : YieldsIf x p v) (hf : YieldsIf (f v) q u) : YieldsIf (x >>= f) (p ∧ q) u where
  value h := by
    rw [hx.value h.1]
    exact hf.value h.2
  shape h := by
    by_cases hp : p
    case pos =>
      rw [hx.value hp]
      exact hf.shape fun hq => h ⟨hp, hq⟩
    case neg =>
      have ⟨e, he⟩ := hx.shape hp
      rw [he]
      exact ⟨e, rfl⟩

end YieldsIf

theorem Agree.of_yields {α β : Type} {x y : Except (Error α) β} {p q : Prop} {v w : β}
    (hx : YieldsIf x p v) (hy : YieldsIf y q w) (hfits : p ↔ q) (hvalue : v = w) : Agree x y := by
  by_cases hp : p
  case pos =>
    rw [hx.value hp, hy.value (hfits.mp hp), hvalue]
    exact .value w
  case neg =>
    have ⟨e, he⟩ := hx.shape hp
    have ⟨e', he'⟩ := hy.shape (hfits.not.mp hp)
    rw [he, he']
    exact .shape e e'

namespace Value

variable {K : Type} {I : Interpretation K}

def IsVector {α : Type} : Value α → Prop
  | scalar _ => False
  | matrix m => m.isVector

def Proper : Value (Exact I) → Prop
  | scalar x => ∃ k, x = of k
  | matrix m => m.Proper

-- What a product comes to by which of its factors are vectors. A vector on the left is a row, and
-- a row on its own is a vector again.
def ofProduct (u w : Bool) (rows cols : ℕ) (A : ℕ → ℕ → K) : Value (Exact I) :=
  match u, w with
  | true, true  => scalar (of (A 0 0))
  | true, false => matrix (.table cols 1 true fun j _ => A 0 j)
  | false, w    => matrix (.table rows cols w A)

variable [Field K] [LinearOrder K] {u v w : Bool} {p q r s : ℕ} {A B C : ℕ → ℕ → K}
  {m : Matrix (Exact I)}

-- The proper values as factors on the left, where a vector is a row, and on the right.

inductive OnLeft : Value (Exact I) → Prop
  | scalar (x : K) : OnLeft (scalar (of x))
  | rows (u : Bool) (p q : ℕ) (A : ℕ → ℕ → K) : OnLeft (ofProduct u false p q A)

inductive OnRight : Value (Exact I) → Prop
  | scalar (x : K) : OnRight (scalar (of x))
  | table (r s : ℕ) {w : Bool} (hw : w → s = 1) (B : ℕ → ℕ → K) :
    OnRight (matrix (.table r s w B))

theorem exists_eq_ofProduct (h : m.Proper) : ∃ A, matrix m =
    ofProduct m.isVector false m.rows (if m.isVector then m.rows else m.cols) A := by
  have ⟨A, hA⟩ := h.exists_table
  cases hm : m.isVector with
  | true =>
    refine ⟨fun _ k => A k 0, ?_⟩
    have hcols : m.cols = 1 := h.wellFormed.vector hm
    rw [hcols, hm] at hA
    refine congrArg matrix (hA.trans (Matrix.table_congr fun i _ j hj => ?_))
    rw [Nat.lt_one_iff.mp hj]
  | false =>
    rw [hm] at hA
    exact ⟨A, congrArg matrix hA⟩

theorem Proper.onLeft {a : Value (Exact I)} (h : a.Proper) : a.OnLeft := by
  cases a with
  | scalar x =>
    obtain ⟨x, rfl⟩ := h
    exact .scalar x
  | matrix m =>
    have ⟨A, hA⟩ := exists_eq_ofProduct h
    exact hA ▸ .rows _ _ _ A

theorem Proper.onRight {b : Value (Exact I)} (h : b.Proper) : b.OnRight := by
  cases b with
  | scalar x =>
    obtain ⟨x, rfl⟩ := h
    exact .scalar x
  | matrix m =>
    have h : m.Proper := h
    have ⟨B, hB⟩ := h.exists_table
    rw [hB]
    exact .table _ _ h.wellFormed.vector B

-- The product of two tables, where the first may be a row.
theorem mul_tables (hw : w → s = 1) :
    YieldsIf ((ofProduct u false p q A).mul (matrix (.table r s w B))) (q = r)
      (ofProduct u w p s (product q A B) : Value (Exact I)) := by
  cases u with
  | false =>
    constructor
    case value => rintro rfl; exact congrArg (matrix <$> ·) Matrix.mul_table
    case shape => exact fun h => ⟨_, congrArg (matrix <$> ·) (if_neg h)⟩
  | true =>
    cases w with
    | false =>
      constructor
      case value => rintro rfl; exact congrArg (matrix <$> ·) Matrix.rowMul_table
      case shape => exact fun h => ⟨_, congrArg (matrix <$> ·) (if_neg h)⟩
    | true =>
      obtain rfl : s = 1 := hw rfl
      constructor
      case value => rintro rfl; exact congrArg (scalar <$> ·) Matrix.dot_table
      case shape =>
        refine fun h => ⟨_, congrArg (scalar <$> ·) (if_neg ?_)⟩
        rwa [Matrix.size_table, Matrix.size_table, Nat.mul_one, Nat.mul_one]

theorem mul_scalar (x : K) : YieldsIf ((ofProduct u w p q A).mul (scalar (of x))) True
    (ofProduct u w p q (x • A) : Value (Exact I)) := by
  apply YieldsIf.always
  cases u with
  | false => exact congrArg (Except.ok ∘ matrix) (Matrix.scale_table x)
  | true =>
    cases w with
    | false => exact congrArg (Except.ok ∘ matrix) (Matrix.scale_table x)
    | true  => exact congrArg (Except.ok ∘ scalar ∘ of) (mul_comm _ x)

theorem scalar_mul (x : K) : YieldsIf ((scalar (of x)).mul (ofProduct u w p q A)) True
    (ofProduct u w p q (x • A) : Value (Exact I)) := by
  apply YieldsIf.always
  cases u with
  | false => exact congrArg (Except.ok ∘ matrix) (Matrix.scale_table x)
  | true =>
    cases w with
    | false => exact congrArg (Except.ok ∘ matrix) (Matrix.scale_table x)
    | true  => rfl

theorem scalar_mul_scalar (x y : K) :
    YieldsIf ((scalar (of x)).mul (scalar (of y))) True (scalar (of (x * y)) : Value (Exact I)) :=
  .always rfl

theorem add_single (x : K) : (Matrix.table 1 1 true fun j _ => A 0 j).map (· + of x) =
    (Matrix.table 1 1 true fun j _ => A 0 j + x : Matrix (Exact I)) :=
  Matrix.map_table (g := (· + x)) fun _ => rfl

-- Where a row meets a vector and a column of a matrix, the one product is a number and the other a
-- vector with one entry. The number is added to that entry.
theorem add_ofProduct (hv : v → q = 1) (hw : w → q = 1) :
    YieldsIf ((ofProduct u v p q A).add (ofProduct u w p q B)) True
      (ofProduct u (v && w) p q (A + B) : Value (Exact I)) := by
  apply YieldsIf.always
  cases u with
  | false => exact congrArg (matrix <$> ·) Matrix.add_table
  | true =>
    cases v with
    | false =>
      cases w with
      | false => exact congrArg (matrix <$> ·) Matrix.add_table
      | true  =>
        obtain rfl : q = 1 := hw rfl
        refine congrArg (Except.ok ∘ matrix) ((add_single (B 0 0)).trans ?_)
        exact Matrix.table_congr fun j hj _ _ => by rw [Nat.lt_one_iff.mp hj]; rfl
    | true =>
      obtain rfl : q = 1 := hv rfl
      cases w with
      | false =>
        refine congrArg (Except.ok ∘ matrix) ((add_single (A 0 0)).trans ?_)
        exact Matrix.table_congr fun j hj _ _ => by rw [Nat.lt_one_iff.mp hj]; exact add_comm ..
      | true => rfl

local instance : DecidableEq (Exact .rational) :=
  inferInstanceAs (DecidableEq (Option ℚ))

-- Around what is not a vector, the two ways to multiply three values compare the same extents.
theorem agree_mul_assoc {a b c : Value (Exact I)} (ha : a.Proper) (hb : b.Proper) (hc : c.Proper)
    (hvector : ¬b.IsVector) : Agree (do (← a.mul b).mul c) (do a.mul (← b.mul c)) := by
  cases hb.onRight with
  | scalar y =>
    cases ha.onLeft with
    | scalar x =>
      cases hc.onLeft with
      | scalar z =>
        exact .of_yields (.bind (scalar_mul_scalar x y) (scalar_mul_scalar _ z))
          (.bind (scalar_mul_scalar y z) (scalar_mul_scalar x _)) Iff.rfl (by rw [mul_assoc])
      | rows =>
        exact .of_yields (.bind (scalar_mul_scalar x y) (scalar_mul _))
          (.bind (scalar_mul y) (scalar_mul x)) Iff.rfl (by rw [mul_smul])
    | rows =>
      cases hc.onRight with
      | scalar z =>
        exact .of_yields (.bind (mul_scalar y) (mul_scalar z))
          (.bind (scalar_mul_scalar y z) (mul_scalar _)) Iff.rfl (by rw [mul_comm, mul_smul])
      | table r s hw =>
        exact .of_yields (.bind (mul_scalar y) (mul_tables hw))
          (.bind (scalar_mul (u := false) y) (mul_tables hw)) Iff.rfl
          (by rw [smul_product, product_smul])
  | @table p q w _ B =>
    obtain rfl : w = false := Bool.eq_false_iff.mpr hvector
    cases ha.onLeft with
    | scalar x =>
      cases hc.onRight with
      | scalar z =>
        exact .of_yields (.bind (scalar_mul (u := false) x) (mul_scalar (u := false) z))
          (.bind (mul_scalar (u := false) z) (scalar_mul (u := false) x)) Iff.rfl
          (by rw [smul_comm])
      | table r s hw =>
        exact .of_yields (.bind (scalar_mul (u := false) x) (mul_tables (u := false) hw))
          (.bind (mul_tables (u := false) hw) (scalar_mul (u := false) x)) and_comm
          (by rw [smul_product])
    | rows =>
      cases hc.onRight with
      | scalar z =>
        exact .of_yields (.bind (mul_tables nofun) (mul_scalar z))
          (.bind (mul_scalar (u := false) z) (mul_tables nofun)) and_comm (by rw [product_smul])
      | table r s hw =>
        exact .of_yields (.bind (mul_tables nofun) (mul_tables hw))
          (.bind (mul_tables (u := false) hw) (mul_tables hw)) and_comm (by rw [product_assoc])

-- A row times a matrix times a vector is a number, which takes a scalar product at the end in
-- either case. No bracketing is of use to a vector that is too long.
theorem agree_mul_assoc_of_row :
    let a : Value (Exact .rational) := matrix (.ofVector [some 1, some 2])
    let b : Value (Exact .rational) := matrix ⟨2, 2, #[some 1, some 2, some 3, some 4], false⟩
    let c : Value (Exact .rational) := matrix (.ofVector [some 5, some 6])
    let d : Value (Exact .rational) := matrix (.ofVector [some 5, some 6, some 7])
    a.Proper ∧ b.Proper ∧ c.Proper ∧ d.Proper ∧ ¬b.IsVector ∧
      (do (← a.mul b).mul c) = .ok (scalar (some 95)) ∧
      Agree (do (← a.mul b).mul c) (do a.mul (← b.mul c)) ∧
      Agree (do (← a.mul b).mul d) (do a.mul (← b.mul d)) := by
  intro a b c d
  have ha : a.Proper := Matrix.proper_of_all (Matrix.wellFormed_ofVector _) rfl
  have hb : b.Proper := Matrix.proper_of_all ⟨rfl, nofun⟩ rfl
  have hc : c.Proper := Matrix.proper_of_all (Matrix.wellFormed_ofVector _) rfl
  have hd : d.Proper := Matrix.proper_of_all (Matrix.wellFormed_ofVector _) rfl
  have hvector : ¬b.IsVector := nofun
  have hproduct : (do (← a.mul b).mul c) = .ok (scalar (some 95)) := by
    subst a b c
    decide +kernel
  exact ⟨ha, hb, hc, hd, hvector, hproduct, agree_mul_assoc ha hb hc hvector,
    agree_mul_assoc ha hb hd hvector⟩

theorem agree_mul_add_left {a : Value (Exact I)} (ha : a.OnLeft) (hv : v → s = 1)
    (hw : w → s = 1) :
    let b : Value (Exact I) := matrix (.table r s v B)
    let c : Value (Exact I) := matrix (.table r s w C)
    Agree (do a.mul (← b.add c)) (do (← a.mul b).add (← a.mul c)) := by
  intro b c
  have hadd : YieldsIf (b.add c) True (matrix (.table r s (v && w) (B + C))) :=
    add_ofProduct (u := false) hv hw
  cases ha with
  | scalar x =>
    exact .of_yields (.bind hadd (scalar_mul (u := false) x))
      (.bind (scalar_mul (u := false) x) (.bind (scalar_mul (u := false) x) (add_ofProduct hv hw)))
      (by simp) (by rw [smul_add])
  | rows u p q A =>
    exact .of_yields (.bind hadd (mul_tables fun h => hv (Bool.and_elim_left h)))
      (.bind (mul_tables hv) (.bind (mul_tables hw) (add_ofProduct hv hw)))
      (by simp) (by rw [product_add])

theorem agree_mul_add_right {a : Value (Exact I)} (ha : a.OnRight) :
    let b : Value (Exact I) := ofProduct u false p q B
    let c : Value (Exact I) := ofProduct u false p q C
    Agree (do (← b.add c).mul a) (do (← b.mul a).add (← c.mul a)) := by
  intro b c
  have hadd : YieldsIf (b.add c) True (ofProduct u false p q (B + C)) := add_ofProduct nofun nofun
  cases ha with
  | scalar x =>
    exact .of_yields (.bind hadd (mul_scalar x))
      (.bind (mul_scalar x) (.bind (mul_scalar x) (add_ofProduct nofun nofun)))
      (by simp) (by rw [smul_add, Bool.and_self])
  | table r s hw =>
    exact .of_yields (.bind hadd (mul_tables hw))
      (.bind (mul_tables hw) (.bind (mul_tables hw) (add_ofProduct hw hw)))
      (by simp) (by rw [Bool.and_self, add_product])

-- Products distribute over sums, on the right of vectors only over sums of two vectors.
theorem agree_mul_add {a : Value (Exact I)} {b c : Matrix (Exact I)} (ha : a.Proper)
    (hb : b.Proper) (hc : c.Proper) (hrows : b.rows = c.rows) (hcols : b.cols = c.cols) :
    Agree (do a.mul (← (matrix b).add (matrix c)))
      (do (← a.mul (matrix b)).add (← a.mul (matrix c))) ∧
    (b.isVector = c.isVector →
      Agree (do (← (matrix b).add (matrix c)).mul a)
        (do (← (matrix b).mul a).add (← (matrix c).mul a))) := by
  constructor
  case left =>
    have ⟨B, hB⟩ := hb.exists_table
    have ⟨C, hC⟩ := hc.exists_table
    rw [hB, hC, ← hrows, ← hcols]
    exact agree_mul_add_left ha.onLeft hb.wellFormed.vector (hcols ▸ hc.wellFormed.vector)
  case right =>
    intro hflag
    have ⟨B, hB⟩ := exists_eq_ofProduct hb
    have ⟨C, hC⟩ := exists_eq_ofProduct hc
    rw [hB, hC, ← hrows, ← hcols, ← hflag]
    exact agree_mul_add_right ha.onRight

-- The sum of a vector and a column is a column, and the product of a row with it is a vector with
-- one entry. One by one, the products are a number and a vector.
theorem agree_mul_add_of_column :
    let a : Value (Exact .rational) := matrix (.ofVector [some 1, some 2, some 3])
    let b : Matrix (Exact .rational) := .ofVector [some 4, some 5, some 6]
    let c : Matrix (Exact .rational) := ⟨3, 1, #[some 1, some 1, some 2], false⟩
    let d : Matrix (Exact .rational) := .ofVector [some 7, some 8, some 9]
    a.Proper ∧ b.Proper ∧ c.Proper ∧ d.Proper ∧ b.rows = c.rows ∧ b.cols = c.cols ∧
      b.rows = d.rows ∧ b.cols = d.cols ∧ b.isVector = d.isVector ∧
      (do a.mul (← (matrix b).add (matrix c))) = .ok (matrix (.ofVector [some 41])) ∧
      Agree (do a.mul (← (matrix b).add (matrix c)))
        (do (← a.mul (matrix b)).add (← a.mul (matrix c))) ∧
      Agree (do (← (matrix b).add (matrix d)).mul a)
        (do (← (matrix b).mul a).add (← (matrix d).mul a)) := by
  intro a b c d
  have ha : a.Proper := Matrix.proper_of_all (Matrix.wellFormed_ofVector _) rfl
  have hb : b.Proper := Matrix.proper_of_all (Matrix.wellFormed_ofVector _) rfl
  have hc : c.Proper := Matrix.proper_of_all ⟨rfl, nofun⟩ rfl
  have hd : d.Proper := Matrix.proper_of_all (Matrix.wellFormed_ofVector _) rfl
  have hproduct :
      (do a.mul (← (matrix b).add (matrix c))) = .ok (matrix (.ofVector [some 41])) := by
    subst a b c
    decide +kernel
  exact ⟨ha, hb, hc, hd, rfl, rfl, rfl, rfl, rfl, hproduct, (agree_mul_add ha hb hc rfl rfl).1,
    (agree_mul_add ha hb hd rfl rfl).2 rfl⟩

end Value

end InfixAlgebra
