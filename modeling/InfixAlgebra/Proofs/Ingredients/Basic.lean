import Mathlib
import InfixAlgebra.Proofs.Canonical.Merging
import InfixAlgebra.Proofs.Canonical.Sorting

namespace InfixAlgebra

variable {α : Type}

structure Ingredients (α : Type) where
  number : α → Prop
  name : String → Prop
  arity : Nat → Prop

-- Ingredients that rewriting makes do with. Coefficients and exponents are added, multiplied and
-- negated whatever comes out of it. Every other number is looked at before it is used: it is
-- either finite or an integer.
structure Ingredients.Closed [Scalar α] (I : Ingredients α) : Prop where
  zero    : I.number 0
  one     : I.number 1
  natural : ∀ {k : Nat}, k < 2 ^ 31 → I.number (Scalar.ofNat k)
  neg     : ∀ {x}, I.number x → I.number (-x)
  add     : ∀ {x y}, I.number x → I.number y → I.number (x + y)
  mul     : ∀ {x y}, I.number x → I.number y → I.number (x * y)
  finite  : ∀ {x}, Scalar.isFinite x → I.number x
  integer : ∀ {x}, (Scalar.toInt? x).isSome → I.number x
  single  : I.arity 1

namespace Expr

inductive MadeOf (I : Ingredients α) : Expr α → Prop
  | number {x : α} : I.number x → MadeOf I (.number x)
  | constant (c : Constant) : MadeOf I (.constant c)
  | var {name : String} : I.name name → MadeOf I (.var name)
  | neg {a : Expr α} : MadeOf I a → MadeOf I (.neg a)
  | binary (op : Operator) {a b : Expr α} : MadeOf I a → MadeOf I b → MadeOf I (.binary op a b)
  | call (f : Elementary) {args : List (Expr α)} : I.arity args.length →
    (∀ a ∈ args, MadeOf I a) → MadeOf I (.call f args)

variable {I : Ingredients α} {t a b : Expr α} {fs : List (Expr α)}

theorem MadeOf.of_number {x : α} (h : (Expr.number x).MadeOf I) : I.number x := by
  cases h with
  | number hx => exact hx

theorem MadeOf.of_neg (h : (Expr.neg a).MadeOf I) : a.MadeOf I := by
  cases h with
  | neg ha => exact ha

theorem MadeOf.of_binary {op : Operator} (h : (Expr.binary op a b).MadeOf I) :
    a.MadeOf I ∧ b.MadeOf I := by
  cases h with
  | binary _ ha hb => exact ⟨ha, hb⟩

theorem MadeOf.of_call {f : Elementary} {args : List (Expr α)}
    (h : (Expr.call f args).MadeOf I) : I.arity args.length ∧ ∀ a ∈ args, a.MadeOf I := by
  cases h with
  | call _ hn hargs => exact ⟨hn, hargs⟩

theorem MadeOf.factors (h : t.MadeOf I) : ∀ f ∈ t.factors, f.MadeOf I := by
  induction t with
  | number x => nofun
  | neg a ih => exact ih h.of_neg
  | binary op a b iha ihb =>
    cases op with
    | mul =>
      have ⟨ha, hb⟩ := h.of_binary
      exact List.forall_mem_append.mpr ⟨iha ha, ihb hb⟩
    | _ => exact List.forall_mem_singleton.mpr h
  | _ => exact List.forall_mem_singleton.mpr h

theorem MadeOf.foldl_mul (h : t.MadeOf I) (hfs : ∀ f ∈ fs, f.MadeOf I) :
    (fs.foldl .mul t).MadeOf I := by
  induction fs generalizing t with
  | nil => exact h
  | cons f fs ih =>
    have ⟨hf, hfs⟩ := List.forall_mem_cons.mp hfs
    exact ih (.binary .mul h hf) hfs

end Expr

variable [Scalar α] {I : Ingredients α} (hI : I.Closed)

namespace Expr

variable {t a b r : Expr α} {op : Operator} {x : α} {args : List (Expr α)}

include hI

theorem MadeOf.coefficientFrom (h : t.MadeOf I) (hx : I.number x) :
    I.number (t.coefficientFrom x) := by
  induction t generalizing x with
  | number y => exact hI.mul hx h.of_number
  | neg a ih => exact ih h.of_neg (hI.neg hx)
  | binary op a b iha ihb =>
    cases op with
    | mul => exact ihb h.of_binary.2 (iha h.of_binary.1 hx)
    | _   => exact hx
  | _ => exact hx

theorem MadeOf.coefficient (h : t.MadeOf I) : I.number t.coefficient :=
  h.coefficientFrom hI hI.one

-- Numbers are folded into finite ones only.
theorem madeOf_of_fold? (h : fold? op a b = some r) : r.MadeOf I := by
  unfold fold? at h
  split at h
  case h_1 x y =>
    dsimp only at h
    split at h
    case isTrue hz =>
      cases h
      exact .number (hI.finite hz)
    case isFalse => cases h
  case h_2 => cases h

theorem MadeOf.getD_fold? (h : r.MadeOf I) : ((fold? op a b).getD r).MadeOf I := by
  cases hf : fold? op a b with
  | none   => exact h
  | some s => exact madeOf_of_fold? hI hf

theorem MadeOf.quotient (ha : a.MadeOf I) (hb : b.MadeOf I) : (quotient a b).MadeOf I := by
  refine MadeOf.getD_fold? hI ?_
  split
  case isTrue => exact ha
  case isFalse =>
    split
    case isTrue => exact .number hI.zero
    case isFalse =>
      split
      case isTrue  => exact .number hI.one
      case isFalse => exact .binary .div ha hb

theorem MadeOf.power (ha : a.MadeOf I) (hb : b.MadeOf I) : (power a b).MadeOf I := by
  unfold Expr.power
  split
  case isTrue => exact .number hI.one
  case isFalse =>
    split
    case isTrue  => exact ha
    case isFalse => exact MadeOf.getD_fold? hI (.binary .pow ha hb)

theorem MadeOf.application {f : Elementary} (hn : I.arity args.length)
    (hargs : ∀ a ∈ args, a.MadeOf I) : (application f args).MadeOf I := by
  unfold Expr.application
  split
  case h_1 x =>
    dsimp only
    split
    case isTrue hy => exact .number (hI.finite hy)
    case isFalse   => exact .call f hn hargs
  case h_2 => exact .call f hn hargs

end Expr

namespace Term

structure MadeOf (I : Ingredients α) (u : Term α) : Prop where
  coefficient : I.number u.coefficient
  factors     : ∀ f ∈ u.factors, f.MadeOf I

variable {u : Term α} {terms : List (Term α)}

include hI

theorem MadeOf.toExpr (h : u.MadeOf I) : u.toExpr.MadeOf I := by
  obtain ⟨x, fs⟩ := u
  cases fs with
  | nil => exact .number h.coefficient
  | cons f fs =>
    have ⟨hf, hfs⟩ := List.forall_mem_cons.mp h.factors
    have hproduct := Expr.MadeOf.foldl_mul hf hfs
    simp only [Term.toExpr]
    split
    case isTrue => exact .number hI.zero
    case isFalse =>
      split
      case isTrue => exact hproduct
      case isFalse =>
        split
        case isTrue  => exact .neg hproduct
        case isFalse => exact .foldl_mul (.binary .mul (.number h.coefficient) hf) hfs

theorem madeOf_sumOf [NumberText α] (h : ∀ u ∈ terms, u.MadeOf I) : (sumOf terms).MadeOf I := by
  have hsorted : ∀ u ∈ SortKey.sort sortKey terms, u.MadeOf I :=
    fun u hu => h u ((SortKey.perm_sort sortKey terms).mem_iff.mp hu)
  have hall (us : List (Term α)) (hus : ∀ u ∈ us, u.MadeOf I) (left : Expr α)
      (hl : left.MadeOf I) : (us.foldl sumOf.append left).MadeOf I := by
    induction us generalizing left with
    | nil => exact hl
    | cons u us ih =>
      have ⟨hu, hus⟩ := List.forall_mem_cons.mp hus
      refine ih hus _ ?_
      unfold sumOf.append
      split
      case isTrue =>
        have hneg : (Term.mk (-u.coefficient) u.factors).MadeOf I :=
          ⟨hI.neg hu.coefficient, hu.factors⟩
        exact .binary .sub hl (hneg.toExpr hI)
      case isFalse => exact .binary .add hl (hu.toExpr hI)
  unfold sumOf
  cases hs : SortKey.sort sortKey terms with
  | nil => exact .number hI.zero
  | cons u us =>
    rw [hs] at hsorted
    have ⟨hu, hus⟩ := List.forall_mem_cons.mp hsorted
    exact hall us hus _ (hu.toExpr hI)

-- Like terms have their coefficients added.
theorem madeOf_mergeAll {news : List (Term α)} (h : ∀ u ∈ terms, u.MadeOf I)
    (hnews : ∀ u ∈ news, u.MadeOf I) : ∀ u ∈ mergeAll terms news, u.MadeOf I := by
  rw [mergeAll_eq]
  refine Merging.forall_addAll (fun u t _ hu ht => ?_) h hnews
  exact ⟨hI.add hu.coefficient ht.coefficient, hu.factors⟩

theorem madeOf_scaledTerms {t : Expr α} {scale : α} (ht : t.MadeOf I) (hs : I.number scale) :
    ∀ u ∈ t.scaledTerms scale, u.MadeOf I := by
  induction scale, t using Expr.scaledTerms_induct with
  | add scale a b iha ihb =>
    have ⟨ha, hb⟩ := ht.of_binary
    rw [Expr.scaledTerms]
    exact List.forall_mem_append.mpr ⟨iha ha hs, ihb hb hs⟩
  | sub scale a b iha ihb =>
    have ⟨ha, hb⟩ := ht.of_binary
    rw [Expr.scaledTerms]
    exact List.forall_mem_append.mpr ⟨iha ha hs, ihb hb (hI.neg hs)⟩
  | scaled scale t s hsum ih =>
    have hfactor := ht.factors s ((Expr.factors_of_scaledSum? hsum).1 ▸ List.mem_singleton_self s)
    rw [Expr.scaledTerms_of_some hsum]
    exact ih hfactor (hI.mul hs (ht.coefficient hI))
  | term scale t hnone hsum =>
    rw [Expr.scaledTerms_of_none hnone hsum]
    exact List.forall_mem_singleton.mpr ⟨hI.mul hs (ht.coefficient hI), ht.factors⟩

end Term

namespace Power

structure MadeOf (I : Ingredients α) (p : Power α) : Prop where
  base     : p.base.MadeOf I
  exponent : I.number p.exponent

variable {p : Power α} {f : Expr α} {fs : List (Expr α)}

theorem MadeOf.toExpr (h : p.MadeOf I) : p.toExpr.MadeOf I := by
  unfold Power.toExpr
  split
  case isTrue  => exact h.base
  case isFalse => exact .binary .pow h.base (.number h.exponent)

include hI

theorem madeOf_ofExpr (h : f.MadeOf I) : (ofExpr f).MadeOf I := by
  unfold ofExpr
  split
  case h_1 a x => exact ⟨h.of_binary.1, h.of_binary.2.of_number⟩
  case h_2     => exact ⟨h, hI.one⟩

-- Equal bases have their exponents added.
theorem madeOf_group [NumberText α] (h : ∀ f ∈ fs, f.MadeOf I) : ∀ f ∈ group fs, f.MadeOf I := by
  have hmerged : ∀ p ∈ mergeAll [] fs, p.MadeOf I := by
    rw [mergeAll_eq]
    refine Merging.forall_addAll (fun q p _ hq hp => ?_) nofun ?_
    case refine_1 => exact ⟨hq.base, hI.add hq.exponent hp.exponent⟩
    case refine_2 =>
      intro p hp
      have ⟨f, hf, hfp⟩ := List.mem_map.mp hp
      exact hfp ▸ madeOf_ofExpr hI (h f hf)
  intro f hf
  rw [group_eq, (SortKey.perm_sort _ _).mem_iff] at hf
  have ⟨p, hp, hpf⟩ := List.mem_map.mp hf
  exact hpf ▸ (hmerged p (List.mem_of_mem_filter hp)).toExpr

end Power

end InfixAlgebra
