import Mathlib
import InfixAlgebra.Expr.Canonical
import InfixAlgebra.Proofs.Canonical.Steps

namespace InfixAlgebra

variable {α β γ : Type}

-- A map from one kind of numbers to another that respects whatever rewriting does with numbers and
-- whatever it asks about them.
structure Scalar.Faithful [Scalar α] [NumberText α] [Scalar β] [NumberText β] (f : α → β) :
    Prop where
  zero       : f 0 = 0
  one        : f 1 = 1
  neg        : ∀ x, f (-x) = -f x
  add        : ∀ x y, f (x + y) = f x + f y
  sub        : ∀ x y, f (x - y) = f x - f y
  mul        : ∀ x y, f (x * y) = f x * f y
  div        : ∀ x y, f (x / y) = f x / f y
  pow        : ∀ x y, f (Scalar.pow x y) = Scalar.pow (f x) (f y)
  elementary : ∀ g x, f (Scalar.elementary g x) = Scalar.elementary g (f x)
  ofNat      : ∀ k, f (Scalar.ofNat k) = Scalar.ofNat k
  beq        : ∀ x y, (f x == f y) = (x == y)
  lt         : ∀ x y, Scalar.lt (f x) (f y) = Scalar.lt x y
  isFinite   : ∀ x, Scalar.isFinite (f x) = Scalar.isFinite x
  toInt?     : ∀ x, Scalar.toInt? (f x) = Scalar.toInt? x
  display    : ∀ x, NumberText.display (f x) = NumberText.display x

theorem Scalar.Faithful.id [Scalar α] [NumberText α] : Faithful (id : α → α) where
  zero           := rfl
  one            := rfl
  neg _          := rfl
  add _ _        := rfl
  sub _ _        := rfl
  mul _ _        := rfl
  div _ _        := rfl
  pow _ _        := rfl
  elementary _ _ := rfl
  ofNat _        := rfl
  beq _ _        := rfl
  lt _ _         := rfl
  isFinite _     := rfl
  toInt? _       := rfl
  display _      := rfl

-- Expressions, terms and powers with every number replaced.

namespace Expr

mutual

def map (f : α → β) : Expr α → Expr β
  | number x      => number (f x)
  | constant c    => constant c
  | var name      => var name
  | neg a         => neg (a.map f)
  | binary op a b => binary op (a.map f) (b.map f)
  | call g args   => call g (mapAll f args)
termination_by structural t => t

def mapAll (f : α → β) : List (Expr α) → List (Expr β)
  | []      => []
  | a :: as => a.map f :: mapAll f as
termination_by structural ts => ts

end

theorem mapAll_eq (f : α → β) (ts : List (Expr α)) : mapAll f ts = ts.map (map f) := by
  induction ts with
  | nil          => rfl
  | cons t ts ih => rw [mapAll, ih]; rfl

theorem map_map (f : α → β) (g : β → γ) (t : Expr α) : (t.map f).map g = t.map (g ∘ f) := by
  induction t with
  | neg a ih              => exact congrArg neg ih
  | binary op a b iha ihb => rw [map, map, iha, ihb]; rfl
  | call h args ih =>
    rw [map, map, map, mapAll_eq, mapAll_eq, mapAll_eq, List.map_map]
    exact congrArg (call h) (List.map_congr_left ih)
  | _ => rfl

theorem map_id (t : Expr α) : t.map id = t := by
  induction t with
  | neg a ih              => exact congrArg neg ih
  | binary op a b iha ihb => rw [map, iha, ihb]
  | call h args ih =>
    rw [map, mapAll_eq, List.map_congr_left ih]
    exact congrArg (call h) (List.map_id args)
  | _ => rfl

end Expr

def Term.map (f : α → β) (u : Term α) : Term β :=
  ⟨f u.coefficient, u.factors.map (Expr.map f)⟩

def Power.map (f : α → β) (p : Power α) : Power β :=
  ⟨p.base.map f, f p.exponent⟩

namespace Expr

variable {f : α → β} (t : Expr α)

-- What does not depend on the numbers.

theorem depth_map : (t.map f).depth = t.depth := by
  induction t with
  | neg a ih              => exact congrArg (· + 1) ih
  | binary op a b iha ihb => simp only [map, depth, iha, ihb]
  | call g args ih =>
    refine congrArg (· + 1) ?_
    induction args with
    | nil => rfl
    | cons a args ihargs =>
      have ⟨ha, hargs⟩ := List.forall_mem_cons.mp ih
      rw [mapAll, depthOfAll, depthOfAll, ha, ihargs hargs]
  | _ => rfl

theorem contains_map (name : String) : (t.map f).contains name = t.contains name := by
  induction t with
  | neg a ih              => exact ih
  | binary op a b iha ihb => simp only [map, contains, iha, ihb]
  | call g args ih =>
    show anyContains name (mapAll f args) = anyContains name args
    induction args with
    | nil => rfl
    | cons a args ihargs =>
      have ⟨ha, hargs⟩ := List.forall_mem_cons.mp ih
      rw [mapAll, anyContains, anyContains, ha, ihargs hargs]
  | _ => rfl

theorem number?_map : (t.map f).number? = t.number?.map f := by
  cases t <;> rfl

theorem isSum_map : (t.map f).isSum = t.isSum := by
  cases t with
  | binary op a b => cases op <;> rfl
  | _             => rfl

theorem any_isSum_map (fs : List (Expr α)) : (fs.map (map f)).any isSum = fs.any isSum := by
  rw [List.any_map]
  exact congrArg (fs.any ·) (funext fun t => t.isSum_map)

theorem rank_map : (t.map f).rank = t.rank := by
  cases t <;> rfl

theorem factors_map : (t.map f).factors = t.factors.map (map f) := by
  induction t with
  | neg a ih => exact ih
  | binary op a b iha ihb =>
    cases op with
    | mul => simp only [map, factors, iha, ihb, List.map_append]
    | _   => rfl
  | _ => rfl

theorem only?_map (fs : List (Expr α)) :
    scaledSum?.only? (fs.map (map f)) = (scaledSum?.only? fs).map (map f) := by
  match fs with
  | []          => rfl
  | [s]         =>
    simp only [List.map, scaledSum?.only?, isSum_map]
    split <;> rfl
  | _ :: _ :: _ => rfl

theorem scaledSum?_map : (t.map f).scaledSum? = t.scaledSum?.map (map f) := by
  cases t with
  | neg a => rw [map, scaledSum?, factors_map, only?_map]; rfl
  | binary op a b =>
    cases op with
    | mul => rw [map, scaledSum?, factors_map, factors_map, ← List.map_append, only?_map]; rfl
    | _   => rfl
  | _ => rfl

theorem foldl_mul_map (fs : List (Expr α)) :
    (fs.map (map f)).foldl .mul (t.map f) = (fs.foldl .mul t).map f := by
  induction fs generalizing t with
  | nil          => rfl
  | cons g fs ih => exact ih (.mul t g)

end Expr

variable [Scalar α] [NumberText α] [Scalar β] [NumberText β] {f : α → β} (hf : Scalar.Faithful f)

namespace Expr

include hf

-- Expressions with corresponding numbers are written alike and compared alike.

theorem precedence_map (t : Expr α) : (t.map f).precedence = t.precedence := by
  cases t with
  | number x => simp only [map, precedence, ← hf.zero, hf.lt]
  | _        => rfl

theorem render_map (t : Expr α) : (t.map f).render = t.render := by
  induction t with
  | number x => exact hf.display x
  | neg a ih => simp only [map, render, ih, precedence_map hf]
  | binary op a b iha ihb =>
    simp only [map, render, leftNeedsParens, rightNeedsParens, iha, ihb, precedence_map hf]
  | call g args ih =>
    have hargs : renderAll (mapAll f args) = renderAll args := by
      induction args with
      | nil => rfl
      | cons a args ihargs =>
        have ⟨ha, hargs⟩ := List.forall_mem_cons.mp ih
        cases args with
        | nil           => exact ha
        | cons b args   =>
          have hrest := ihargs hargs
          simp only [mapAll, renderAll] at hrest ⊢
          rw [ha, hrest]
    rw [map, render, render, hargs]
  | _ => rfl

theorem same_map (a b : Expr α) : (a.map f == b.map f) = (a == b) := by
  show same (a.map f) (b.map f) = same a b
  induction a generalizing b with
  | number x =>
    cases b with
    | number y => exact hf.beq x y
    | _        => rfl
  | constant c => cases b <;> rfl
  | var name   => cases b <;> rfl
  | neg a ih =>
    cases b with
    | neg b => exact ih b
    | _     => rfl
  | binary op a a' iha iha' =>
    cases b with
    | binary op' b b' => simp only [map, same, iha, iha']
    | _               => rfl
  | call g args ih =>
    cases b with
    | call g' args' =>
      have hargs : sameAll (mapAll f args) (mapAll f args') = sameAll args args' := by
        induction args generalizing args' with
        | nil => cases args' <;> rfl
        | cons a args ihargs =>
          obtain ⟨ha, hargs⟩ := List.forall_mem_cons.mp ih
          cases args' with
          | nil          => rfl
          | cons b args' => simp only [mapAll, sameAll, ha, ihargs hargs]
      simp only [map, same, hargs]
    | _ => rfl

theorem isNumber_map (t : Expr α) (x : α) : (t.map f).isNumber (f x) = t.isNumber x := by
  cases t with
  | number y => exact hf.beq y x
  | _        => rfl

theorem isNumber_zero_map (t : Expr α) : (t.map f).isNumber 0 = t.isNumber 0 := by
  rw [← hf.zero, isNumber_map hf]

theorem isNumber_one_map (t : Expr α) : (t.map f).isNumber 1 = t.isNumber 1 := by
  rw [← hf.one, isNumber_map hf]

theorem coefficientFrom_map (t : Expr α) (x : α) :
    (t.map f).coefficientFrom (f x) = f (t.coefficientFrom x) := by
  induction t generalizing x with
  | number y => exact (hf.mul x y).symm
  | neg a ih => rw [map, coefficientFrom, coefficientFrom, ← hf.neg, ih]
  | binary op a b iha ihb =>
    cases op with
    | mul => rw [map, coefficientFrom, coefficientFrom, iha, ihb]
    | _   => rfl
  | _ => rfl

theorem coefficient_map (t : Expr α) : (t.map f).coefficient = f t.coefficient := by
  rw [coefficient, ← hf.one, coefficientFrom_map hf, coefficient]

end Expr

namespace Term

include hf

theorem toExpr_map (u : Term α) : (u.map f).toExpr = u.toExpr.map f := by
  obtain ⟨x, fs⟩ := u
  cases fs with
  | nil => rfl
  | cons g fs =>
    have hmul := Expr.foldl_mul_map (f := f) (.mul (.number x) g) fs
    simp only [map, toExpr, List.map_cons, ← hf.zero, ← hf.one, ← hf.neg, hf.beq,
      Expr.foldl_mul_map, apply_ite (Expr.map f)]
    rw [← hmul]
    rfl

theorem scalesSum_map (u : Term α) : (u.map f).scalesSum = u.scalesSum := by
  simp only [map, scalesSum, ← hf.one, hf.beq, List.length_map, Expr.any_isSum_map]

theorem sortKey_map (u : Term α) : (u.map f).sortKey = u.sortKey := by
  obtain ⟨x, fs⟩ := u
  cases fs with
  | nil => rfl
  | cons g fs =>
    have hone : Term.mk (1 : β) ((g :: fs).map (Expr.map f)) = (Term.mk 1 (g :: fs)).map f := by
      rw [map, hf.one]
    simp only [map, sortKey, List.map_cons, Expr.rank_map]
    rw [← List.map_cons, hone, toExpr_map hf, Expr.render_map hf]

end Term

end InfixAlgebra
