import InfixAlgebra.Proofs.Canonical.Equality
import InfixAlgebra.Proofs.Evaluation.Unbound
import InfixAlgebra.Proofs.Ingredients.Derivative
import InfixAlgebra.Proofs.Ingredients.Fraction

namespace InfixAlgebra

variable {α : Type}

def Ingredients.named (p : String → Prop) : Ingredients α where
  number _ := True
  name     := p
  arity _  := True

-- Where all numbers are admitted, only the calls that rewriting makes itself matter.
theorem Ingredients.closed_of_forall [Scalar α] {I : Ingredients α} (hn : ∀ x, I.number x)
    (h : I.arity 1) : I.Closed where
  zero      := hn _
  one       := hn _
  natural _ := hn _
  neg _     := hn _
  add _ _   := hn _
  mul _ _   := hn _
  finite _  := hn _
  integer _ := hn _
  single    := h

theorem Ingredients.closed_named [Scalar α] (p : String → Prop) : (named (α := α) p).Closed :=
  closed_of_forall (fun _ => trivial) trivial

theorem Ingredients.closed_singleCalls [Scalar α] : (singleCalls (α := α)).Closed :=
  closed_of_forall (fun _ => trivial) rfl

namespace Expr

-- An expression is made of the names that occur in it.
theorem madeOf_named_iff {p : String → Prop} {t : Expr α} :
    t.MadeOf (.named p) ↔ ∀ name, t.contains name → p name := by
  constructor
  case mp =>
    intro h name hname
    induction h with
    | number   => cases hname
    | constant => cases hname
    | var h    => exact beq_iff_eq.mp hname ▸ h
    | neg _ ih => exact ih hname
    | binary op _ _ iha ihb =>
      simp only [contains, Bool.or_eq_true] at hname
      exact hname.elim iha ihb
    | call f _ _ ih =>
      rw [contains, anyContains_eq, List.any_eq_true] at hname
      obtain ⟨a, ha, hname⟩ := hname
      exact ih a ha hname
  case mpr =>
    intro h
    induction t with
    | number x   => exact .number trivial
    | constant c => exact .constant c
    | var name   => exact .var (h name (beq_self_eq_true name))
    | neg a ih   => exact .neg (ih h)
    | binary op a b iha ihb =>
      simp only [contains, Bool.or_eq_true] at h
      exact .binary op (iha fun name hn => h name (.inl hn)) (ihb fun name hn => h name (.inr hn))
    | call f args ih =>
      refine .call f trivial fun a ha => ih a ha fun name hn => h name ?_
      rw [contains, anyContains_eq, List.any_eq_true]
      exact ⟨a, ha, hn⟩

variable [Scalar α] [NumberText α] {t r : Expr α} {config : Config α}

inductive Rewrites (config : Config α) (t : Expr α) : Expr α → Prop
  | derivative {r : Expr α} (name : String) :
    t.differentiate config name = .ok r → Rewrites config t r
  | canonical {r : Expr α} : t.canonical config = .ok r → Rewrites config t r
  | fraction {r : Expr α} : t.rationalize config = .ok r → Rewrites config t r

theorem MadeOf.rewrites {I : Ingredients α} (hI : I.Closed) (h : Rewrites config t r)
    (ht : t.MadeOf I) : r.MadeOf I := by
  cases h with
  | derivative name h => exact ht.differentiate hI h
  | canonical h       => exact ht.canonical hI h
  | fraction h        => exact ht.rationalize hI h

-- Rewriting brings in no names, and no calls of another number of arguments than one. So it is
-- enough for the evaluation of the result that the variables of the expression have values.
theorem contains_of_rewrites (h : Rewrites config t r) :
    (∀ name, r.contains name → t.contains name) ∧
    (t.MadeOf .singleCalls → r.MadeOf .singleCalls) ∧
    ∀ config scope, (∀ name, t.contains name → (scope.find? name).isSome) →
      ∀ name, r.evaluate config scope ≠ .error (.unbound name) := by
  have hnames : ∀ name, r.contains name → t.contains name :=
    madeOf_named_iff.mp (.rewrites (Ingredients.closed_named _) h
      (madeOf_named_iff.mpr fun _ hname => hname))
  refine ⟨hnames, .rewrites Ingredients.closed_singleCalls h, fun config scope hscope name => ?_⟩
  exact evaluate_ne_unbound fun name hname => hscope name (hnames name hname)

-- The names come in another order and a number of times. A matrix may stand for one of them.
theorem contains_of_rewrites_of_quotients :
    let x : Expr Float := .var "x"
    let y : Expr Float := .var "y"
    let s : Expr Float := .call .sin [.var "z"]
    let t := Expr.add (.div x y) (.div (.number 1) s)
    let r := Expr.div (.add (.mul s x) y) (.mul s y)
    let scope : Scope Float :=
      ⟨[("x", .scalar 1), ("y", .matrix (.ofVector [1, 2])), ("z", .scalar 0)]⟩
    t.rationalize .standard = .ok r ∧ (∀ name, r.contains name → t.contains name) ∧
      t.MadeOf .singleCalls ∧ r.MadeOf .singleCalls ∧
      (∀ name, t.contains name → (scope.find? name).isSome) ∧
      ∀ name, r.evaluate .standard scope ≠ .error (.unbound name) := by
  intro x y s t r scope
  have h : t.rationalize .standard = .ok r := by decide +kernel
  have ht : t.MadeOf .singleCalls :=
    .binary _ (.binary _ (.var trivial) (.var trivial))
      (.binary _ (.number trivial) (.call _ rfl (List.forall_mem_singleton.mpr (.var trivial))))
  have hscope : ∀ name, t.contains name → (scope.find? name).isSome := by
    simp [t, s, x, y, scope, contains, anyContains, NameMap.find?, List.lookup]
    grind
  obtain ⟨hnames, hcalls, hevaluate⟩ := contains_of_rewrites (.fraction h)
  exact ⟨h, hnames, ht, hcalls ht, hscope, hevaluate _ _ hscope⟩

end Expr

end InfixAlgebra
