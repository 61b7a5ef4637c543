import Mathlib
import InfixAlgebra.Expr.Evaluation
import InfixAlgebra.Proofs.Except
import InfixAlgebra.Proofs.Matrix.WellFormed
import InfixAlgebra.Scalar.Double

namespace InfixAlgebra

variable {α : Type}

-- What the operators do to shapes, without any numbers.

namespace Shape

def add (a b : Shape) : Except (Error α) Shape :=
  if a.rows = b.rows ∧ a.cols = b.cols then
    pure ⟨a.rows, a.cols, a.isVector && b.isVector⟩
  else
    throw (.shape (.unequal a b))

def mul (a b : Shape) : Except (Error α) Shape :=
  if a.cols = b.rows then
    pure ⟨a.rows, b.cols, b.isVector⟩
  else
    throw (.shape (.innerExtent a b))

def rowMul (v b : Shape) : Except (Error α) Shape :=
  if v.rows = b.rows then
    pure ⟨b.cols, 1, true⟩
  else
    throw (.shape (.rowLength b.rows v))

end Shape

namespace ValueShape

def add : ValueShape → ValueShape → Except (Error α) ValueShape
  | scalar, scalar     => pure scalar
  | scalar, matrix s   => pure (matrix s)
  | matrix s, scalar   => pure (matrix s)
  | matrix s, matrix t => matrix <$> s.add t

def mul : ValueShape → ValueShape → Except (Error α) ValueShape
  | scalar, scalar     => pure scalar
  | scalar, matrix s   => pure (matrix s)
  | matrix s, scalar   => pure (matrix s)
  | matrix s, matrix t =>
    match s.isVector, t.isVector with
    | true, true  => if s.rows = t.rows then pure scalar else throw (.shape (.unequal s t))
    | true, false => matrix <$> s.rowMul t
    | false, _    => matrix <$> s.mul t

def combine (op : Operator) (a b : ValueShape) : Except (Error α) ValueShape :=
  match op, a, b with
  | _, scalar, scalar      => pure scalar
  | .add, a, b             => a.add b
  | .sub, a, b             => a.add b
  | .mul, a, b             => a.mul b
  | .div, matrix s, scalar => pure (matrix s)
  | op, a, b               => throw (.unsupported (.operands op a b))

variable {a b : ValueShape}

theorem combine_add : combine .add a b = (a.add b : Except (Error α) ValueShape) := by
  cases a <;> cases b <;> rfl

theorem combine_sub : combine .sub a b = (a.add b : Except (Error α) ValueShape) := by
  cases a <;> cases b <;> rfl

theorem combine_mul : combine .mul a b = (a.mul b : Except (Error α) ValueShape) := by
  cases a <;> cases b <;> rfl

end ValueShape

-- The operators on matrices and on values respect this.

namespace Matrix

variable [Scalar α] {a b v : Matrix α}

theorem shape_add : shape <$> a.add b = (a.shape.add b.shape : Except (Error α) Shape) :=
  apply_ite (shape <$> ·) ..

theorem shape_mul : shape <$> a.mul b = (a.shape.mul b.shape : Except (Error α) Shape) :=
  apply_ite (shape <$> ·) ..

theorem shape_rowMul :
    shape <$> v.rowMul b = (v.shape.rowMul b.shape : Except (Error α) Shape) := by
  have hshape (f : Nat → α) :
      (ofVector ((List.range b.cols).map f)).shape = ⟨b.cols, 1, true⟩ := by
    rw [shape, ofVector, List.length_map, List.length_range]
  refine (apply_ite (shape <$> ·) ..).trans ?_
  show ite _ (pure _) _ = _
  rw [hshape]
  rfl

-- As many numbers are as many rows, since vectors have one column.
theorem map_dot {β : Type} (ha : a.WellFormed) (hb : b.WellFormed) (hva : a.isVector)
    (hvb : b.isVector) (c : β) :
    (fun _ => c) <$> a.dot b =
      if a.rows = b.rows then pure c else throw (.shape (.unequal a.shape b.shape)) := by
  unfold dot
  rw [ha.size, hb.size, ha.vector hva, hb.vector hvb, Nat.mul_one, Nat.mul_one]
  exact apply_ite ((fun _ => c) <$> ·) ..

end Matrix

namespace Value

theorem shape_map (f : α → α) (v : Value α) : (v.map f).shape = v.shape := by
  cases v <;> rfl

variable [Scalar α] {v w : Value α}

theorem shape_add : shape <$> v.add w = (v.shape.add w.shape : Except (Error α) ValueShape) := by
  cases v with
  | scalar x => cases w <;> rfl
  | matrix m =>
    cases w with
    | scalar y => rfl
    | matrix n =>
      show shape <$> matrix <$> m.add n = ValueShape.matrix <$> m.shape.add n.shape
      rw [← Matrix.shape_add, ← comp_map, ← comp_map]
      rfl

theorem shape_mul (hv : v.WellFormed) (hw : w.WellFormed) :
    shape <$> v.mul w = (v.shape.mul w.shape : Except (Error α) ValueShape) := by
  cases v with
  | scalar x => cases w <;> rfl
  | matrix m =>
    cases w with
    | scalar y => rfl
    | matrix n =>
      have hvm : m.shape.isVector = m.isVector := rfl
      have hvn : n.shape.isVector = n.isVector := rfl
      simp only [Value.mul, ValueShape.mul, shape, hvm, hvn]
      cases hm : m.isVector with
      | true =>
        cases hn : n.isVector with
        | true =>
          show shape <$> scalar <$> m.dot n = _
          rw [← comp_map]
          exact Matrix.map_dot hv hw hm hn ValueShape.scalar
        | false =>
          show shape <$> matrix <$> m.rowMul n = ValueShape.matrix <$> m.shape.rowMul n.shape
          rw [← Matrix.shape_rowMul, ← comp_map, ← comp_map]
          rfl
      | false =>
        show shape <$> matrix <$> m.mul n = ValueShape.matrix <$> m.shape.mul n.shape
        rw [← Matrix.shape_mul, ← comp_map, ← comp_map]
        rfl

theorem shape_combine {op : Operator} (hv : v.WellFormed) (hw : w.WellFormed) :
    shape <$> v.combine op w = (v.shape.combine op w.shape : Except (Error α) ValueShape) := by
  unfold Value.combine
  split
  case h_1 => cases op <;> rfl
  case h_2 => rw [ValueShape.combine_add, shape_add]
  case h_3 => rw [ValueShape.combine_sub, shape_add, shape_map]
  case h_4 => rw [ValueShape.combine_mul, shape_mul hv hw]
  case h_5 => rfl
  case h_6 => cases op <;> cases v <;> cases w <;> first | rfl | simp_all

end Value

namespace Metered

variable {β γ β' γ' : Type} {R : β → γ → Prop} {R' : β' → γ' → Prop}

def Pairs (R : β → γ → Prop) (x : Metered α β) (y : Metered α γ) : Prop :=
  ∀ l used, Paired (fun r s => R r.1 s.1 ∧ r.2 = s.2) ((ReaderT.run x l).run used)
    ((ReaderT.run y l).run used)

namespace Pairs

variable {x : Metered α β} {y : Metered α γ}

theorem refl (x : Metered α β) : Pairs Eq x x := by
  intro l used
  cases (ReaderT.run x l).run used with
  | error e => exact .error e
  | ok r    => exact .ok ⟨rfl, rfl⟩

theorem pure {b : β} {c : γ} (h : R b c) : Pairs (α := α) R (pure b) (pure c) :=
  fun _ _ => .ok ⟨h, rfl⟩

theorem throw (e : Error α) : Pairs R (throw e) (throw e) :=
  fun _ _ => .error e

theorem lift {x : Except (Error α) β} {y : Except (Error α) γ} (h : Paired R x y) :
    Pairs R (liftM x : Metered α β) (liftM y : Metered α γ) :=
  fun _ _ => h.bind fun h => .ok ⟨h, rfl⟩

theorem bind {k : β → Metered α β'} {m : γ → Metered α γ'} (h : Pairs R x y)
    (hk : ∀ {b c}, R b c → Pairs R' (k b) (m c)) : Pairs R' (x >>= k) (y >>= m) := by
  intro l used
  refine (h l used).bind fun {r s} hrs => ?_
  show Paired _ ((ReaderT.run (k r.1) l).run r.2) ((ReaderT.run (m s.1) l).run s.2)
  rw [hrs.right]
  exact hk hrs.left l s.2

theorem run (h : Pairs R x y) (l : Limits) : Paired R (Metered.run x l) (Metered.run y l) :=
  (h l 0).bind fun h => .ok h.left

end Pairs

end Metered

namespace Value

structure Alike (v w : Value α) : Prop where
  left  : v.WellFormed
  right : w.WellFormed
  shape : v.shape = w.shape

variable {v w v' w' : Value α}

theorem Alike.scalar (x y : α) : Alike (.scalar x) (.scalar y) :=
  ⟨trivial, trivial, rfl⟩

theorem Alike.map (h : v.Alike w) (f : α → α) : (v.map f).Alike (w.map f) where
  left  := h.left.map f
  right := h.right.map f
  shape := by rw [shape_map, shape_map, h.shape]

theorem Alike.combine [Scalar α] (hv : v.Alike v') (hw : w.Alike w') (op : Operator) :
    Paired Alike (v.combine op w) (v'.combine op w') :=
  have hshape : Value.shape <$> v.combine op w = Value.shape <$> v'.combine op w' := by
    rw [shape_combine hv.left hw.left, shape_combine hv.right hw.right, hv.shape, hw.shape]
  .of_map_eq hshape fun hu hu' h => ⟨hv.left.combine hw.left hu, hv.right.combine hw.right hu', h⟩

end Value

namespace Expr

open Metered

variable [Scalar α] {scope scope' : Scope α} {t : Expr α}

-- Two evaluations stay side by side when they find alike values for the variables, or none.
theorem pairs_evaluateAt
    (h : ∀ name, t.contains name → Option.Rel Value.Alike (scope.find? name) (scope'.find? name))
    (depth : Nat) :
    Pairs Value.Alike (t.evaluateAt scope depth) (t.evaluateAt scope' depth) := by
  induction t generalizing depth with
  | number x   => exact (Pairs.refl _).bind fun _ => .pure (.scalar x x)
  | constant c => exact (Pairs.refl _).bind fun _ => .pure (.scalar _ _)
  | var name   =>
    refine (Pairs.refl _).bind fun _ => ?_
    have hname := h name (beq_self_eq_true name)
    cases hv : scope.find? name with
    | none =>
      cases hv' : scope'.find? name with
      | none    => exact .throw _
      | some v' => rw [hv, hv'] at hname; cases hname
    | some v =>
      cases hv' : scope'.find? name with
      | none    => rw [hv, hv'] at hname; cases hname
      | some v' => rw [hv, hv'] at hname; cases hname with | some hv => exact .pure hv
  | neg a ih =>
    exact (Pairs.refl _).bind fun _ => (ih h (depth + 1)).bind fun hv => .pure (hv.map _)
  | binary op a b iha ihb =>
    have ha := iha fun name hname => h name (Bool.or_eq_true_iff.mpr (.inl hname))
    have hb := ihb fun name hname => h name (Bool.or_eq_true_iff.mpr (.inr hname))
    exact (Pairs.refl _).bind fun _ => (ha (depth + 1)).bind fun hv =>
      (hb (depth + 1)).bind fun hw => .lift (hv.combine hw op)
  | call f args ih =>
    match args with
    | []             => exact (Pairs.refl _).bind fun _ => .throw _
    | a :: b :: args => exact (Pairs.refl _).bind fun _ => .throw _
    | [a]            =>
      have ha := ih a List.mem_cons_self fun name hname =>
        h name (Bool.or_eq_true_iff.mpr (.inl hname))
      exact (Pairs.refl _).bind fun _ => (ha (depth + 1)).bind fun hv => .pure (hv.map _)

theorem wellFormed_of_evaluate {config : Config α} {v : Value α}
    (h : ∀ name v, scope.find? name = some v → v.WellFormed)
    (hv : t.evaluate config scope = .ok v) : v.WellFormed := by
  have hself (name : String) : Option.Rel Value.Alike (scope.find? name) (scope.find? name) := by
    cases hfind : scope.find? name with
    | none   => exact .none
    | some w => exact .some ⟨h name w hfind, h name w hfind, rfl⟩
  have hpaired := (pairs_evaluateAt (t := t) (fun name _ => hself name) 1).run config.toLimits
  have hrun : (t.evaluateAt scope 1).run config.toLimits = .ok v := hv
  rw [hrun] at hpaired
  cases hpaired with
  | ok hv => exact hv.left

-- Whether evaluation succeeds, the shape that it gives, and otherwise the error, do not depend on
-- the numbers in the scope.
theorem shape_evaluate_eq {config : Config α}
    (h : ∀ name, t.contains name → Option.Rel Value.Alike (scope.find? name) (scope'.find? name)) :
    Value.shape <$> t.evaluate config scope = Value.shape <$> t.evaluate config scope' :=
  ((pairs_evaluateAt h 1).run config.toLimits).map_eq Value.Alike.shape

-- A divisor that is zero changes nothing: the quotient is a matrix all the same.
theorem shape_evaluate_eq_of_zero :
    let t : Expr Float := .div (.mul (.var "a") (.var "b")) (.var "c")
    let scope (x y z : Float) : Scope Float :=
      ⟨[("a", .matrix ⟨1, 2, #[x, y], false⟩), ("b", .matrix ⟨2, 1, #[y, y], true⟩),
        ("c", .scalar z)]⟩
    (∀ name, t.contains name →
        Option.Rel Value.Alike ((scope 3 4 5).find? name) ((scope 1 0 0).find? name)) ∧
      Value.shape <$> t.evaluate .standard (scope 3 4 5) =
        Value.shape <$> t.evaluate .standard (scope 1 0 0) ∧
      Value.shape <$> t.evaluate .standard (scope 3 4 5) = .ok (.matrix ⟨1, 1, true⟩) := by
  intro t scope
  have h : ∀ name, t.contains name →
      Option.Rel Value.Alike ((scope 3 4 5).find? name) ((scope 1 0 0).find? name) := by
    intro name hname
    have hcases : ("a" = name ∨ "b" = name) ∨ "c" = name := by
      simpa only [t, contains, Bool.or_eq_true_iff, beq_iff_eq] using hname
    obtain (rfl | rfl) | rfl := hcases
    · exact .some ⟨⟨rfl, by simp⟩, ⟨rfl, by simp⟩, by simp only [Value.shape, Matrix.shape]⟩
    · exact .some ⟨⟨rfl, fun _ => rfl⟩, ⟨rfl, fun _ => rfl⟩, by
        simp only [Value.shape, Matrix.shape]⟩
    · exact .some (.scalar 5 0)
  exact ⟨h, shape_evaluate_eq h, rfl⟩

end Expr

end InfixAlgebra
