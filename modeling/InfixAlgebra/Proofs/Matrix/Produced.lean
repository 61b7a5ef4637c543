import Mathlib
import InfixAlgebra.Proofs.Evaluation.Shapes
import InfixAlgebra.Proofs.LinearSystem.Access

namespace InfixAlgebra

variable {α : Type} [Scalar α]

-- What operations make of numbers, and of what they have made before, in any number of steps.
inductive Value.Produced : Value α → Prop
  | scalar (x : α) : Produced (.scalar x)
  | ofRows {rows : List (List α)} {m : Matrix α} (h : Matrix.ofRows rows = .ok m) :
    Produced (.matrix m)
  | ofVector (xs : List α) : Produced (.matrix (.ofVector xs))
  | ofData {d : MatrixData α} {m : Matrix α} (h : Matrix.ofData d = .ok m) : Produced (.matrix m)
  | map (f : α → α) {v : Value α} (hv : Produced v) : Produced (v.map f)
  | scale (x : α) {m : Matrix α} (hm : Produced (.matrix m)) : Produced (.matrix (m.scale x))
  | matrixAdd {a b m : Matrix α} (ha : Produced (.matrix a)) (hb : Produced (.matrix b))
    (h : a.add b = .ok m) : Produced (.matrix m)
  | matrixMul {a b m : Matrix α} (ha : Produced (.matrix a)) (hb : Produced (.matrix b))
    (h : a.mul b = .ok m) : Produced (.matrix m)
  | add {v w u : Value α} (hv : Produced v) (hw : Produced w) (h : v.add w = .ok u) : Produced u
  | mul {v w u : Value α} (hv : Produced v) (hw : Produced w) (h : v.mul w = .ok u) : Produced u
  | evaluate {scope : Scope α} (hscope : ∀ name v, scope.find? name = some v → Produced v)
    {config : Config α} {t : Expr α} {v : Value α} (h : t.evaluate config scope = .ok v) :
    Produced v

theorem Value.Produced.wellFormed {v : Value α} (h : v.Produced) : v.WellFormed := by
  induction h with
  | scalar                => trivial
  | ofRows h              => exact Matrix.wellFormed_of_ofRows h
  | ofVector xs           => exact Matrix.wellFormed_ofVector xs
  | ofData h              => exact Matrix.wellFormed_of_ofData h
  | map f _ hv            => exact hv.map f
  | scale x _ hm          => exact Matrix.WellFormed.scale hm x
  | matrixAdd _ _ h ha hb => exact Matrix.WellFormed.add ha hb h
  | matrixMul _ _ h _ hb  => exact Matrix.WellFormed.mul hb h
  | add _ _ h hv hw       => exact hv.add hw h
  | mul _ _ h hv hw       => exact hv.mul hw h
  | evaluate _ h hscope   => exact Expr.wellFormed_of_evaluate hscope h

namespace Matrix

-- No access to the entries of `m` is out of range, in whatever is done with it and with `n`.
structure InRange (m n : Matrix α) : Prop where
  row       : ∀ i < m.rows, m.row? i = some (m.row i)
  entry     : ∀ i < m.rows, ∀ j < m.cols, m.lookup? i j = some (m.entry i j)
  set       : ∀ i < m.rows, ∀ j < m.cols, ∀ x, (m.set? i j x).isSome
  swapRows  : ∀ a < m.rows, ∀ b < m.rows,
    Factorization.swapRows? m a b = some (Factorization.swapRows m a b)
  mul       : (m.mul? n).run = some (m.mul n)
  rowMul    : m.isVector → (m.rowMul? n).run = some (m.rowMul n)
  product   : ((Value.matrix m).mul? (.matrix n)).run = some ((Value.matrix m).mul (.matrix n))
  factorize : ∀ ε, (Factorization.ofMatrix? ε m).run = some (Factorization.ofMatrix ε m)
  solution  : ∀ ε f, Factorization.ofMatrix ε m = .ok f → ∀ b, (f.solve? b).run = some (f.solve b)
  solve     : ∀ config b, (m.solve? config b).run = some (m.solve config b)

variable {m n : Matrix α}

theorem WellFormed.inRange (hm : m.WellFormed) (hn : n.WellFormed) : m.InRange n where
  row _ hi           := hm.row?_eq hi
  entry _ hi _ hj    := hm.lookup?_eq hi hj
  set _ hi _ hj x    := Option.isSome_iff_exists.mpr ⟨_, hm.set?_eq hi hj x⟩
  swapRows _ ha _ hb := Factorization.swapRows?_eq hm ha hb
  mul                := run_mul? hm hn
  rowMul hvector     := run_rowMul? hm hn hvector
  product            := Value.run_mul? (v := .matrix m) (w := .matrix n) hm hn
  factorize ε        := (Factorization.WellFormed.run_ofMatrix? hm ε).left
  solution ε f hf b  := Factorization.run_solve?
    ((Factorization.WellFormed.run_ofMatrix? hm ε).right f hf) b
  solve config b     := run_solve? hm config b

theorem inRange_of_produced (hm : (Value.matrix m).Produced) (hn : (Value.matrix n).Produced) :
    m.WellFormed ∧ m.InRange n :=
  have h : m.WellFormed := hm.wellFormed
  ⟨h, h.inRange hn.wellFormed⟩

-- Two rows without entries, times a vector without entries, are a vector of two zeros.
theorem inRange_of_produced_of_empty :
    ∃ e v : Matrix Float, ofRows [[], []] = .ok e ∧ e.mul (ofVector []) = .ok v ∧
      v.shape = ⟨2, 1, true⟩ ∧ (Value.matrix v).Produced ∧ (Value.matrix e).Produced ∧
      v.WellFormed ∧ v.InRange e :=
  have he : (Value.matrix (⟨2, 0, #[], false⟩ : Matrix Float)).Produced :=
    .ofRows (show ofRows [[], []] = .ok _ from rfl)
  have hv := .matrixMul he (.ofVector []) rfl
  ⟨_, _, rfl, rfl, rfl, hv, he, inRange_of_produced hv he⟩

end Matrix

end InfixAlgebra
