import InfixAlgebra.Proofs.Canonical.Induction
import InfixAlgebra.Proofs.Ingredients.Basic

namespace InfixAlgebra

open Metered

variable {α : Type} [Scalar α] [NumberText α]

namespace Expr

-- What is made of the ingredients becomes what is made of them.

def KeepsTo (I : Ingredients α) (t r : Expr α) : Prop :=
  t.MadeOf I → r.MadeOf I

def SumKeepsTo (I : Ingredients α) (addends : List (α × Expr α)) (r : Expr α) : Prop :=
  (∀ p ∈ addends, I.number p.1 ∧ p.2.MadeOf I) → r.MadeOf I

end Expr

variable {I : Ingredients α} (hI : I.Closed)

include hI

omit [NumberText α] in
theorem Term.madeOf_settles {terms result : List (Term α)}
    (h : Settles (Expr.KeepsTo I) terms result) (hterms : ∀ u ∈ terms, u.MadeOf I) :
    ∀ u ∈ result, u.MadeOf I := by
  have hfilter {p q : Term α → Bool} {terms : List (Term α)} (h : ∀ u ∈ terms, u.MadeOf I) :
      ∀ u ∈ (terms.filter p).filter q, u.MadeOf I :=
    fun u hu => h u (List.mem_of_mem_filter (List.mem_of_mem_filter hu))
  induction h with
  | done => exact hfilter hterms
  | @round terms products result _ hproducts _ ih =>
    have hrs : ∀ r ∈ products, r.MadeOf I :=
      forall_of_forall₂ hproducts fun u hu => (hfilter hterms u hu).toExpr hI
    refine ih (madeOf_mergeAll hI (hfilter hterms) fun u hu => ?_)
    have ⟨r, hr, hu⟩ := List.mem_flatMap.mp hu
    exact madeOf_scaledTerms hI (hrs r (List.mem_reverse.mp hr)) hI.one u hu

namespace Expr

variable {t r a b : Expr α} {addends : List (α × Expr α)} {u u' : Term α} {config : Config α}
  {d : Nat}

theorem sumKeepsTo_of_sumsTo (h : SumsTo (KeepsTo I) addends r) : SumKeepsTo I addends r := by
  intro haddends
  have ⟨terms, hsettles, hr⟩ := h
  have hscaled : ∀ u ∈ scaledTermsOfAll addends, u.MadeOf I := by
    intro u hu
    have ⟨p, hp, hu⟩ := List.mem_flatMap.mp hu
    have ⟨hx, ht⟩ := haddends p hp
    exact Term.madeOf_scaledTerms hI ht hx u hu
  have hmerged := Term.madeOf_mergeAll hI (List.forall_mem_nil _) hscaled
  exact hr ▸ Term.madeOf_sumOf hI (Term.madeOf_settles hI hsettles hmerged)

theorem madeOf_of_spreads (h : Spreads (SumKeepsTo I) u u') (hu : u.MadeOf I) : u'.MadeOf I := by
  cases h with
  | none => exact hu
  | @into c before after s r _ _ _ hsum =>
    have ⟨hbefore, hrest⟩ := List.forall_mem_append.mp hu.factors
    have ⟨hs, hafter⟩ := List.forall_mem_cons.mp hrest
    have hmul : (Expr.mul (.number c) s).MadeOf I := .binary .mul (.number hu.coefficient) hs
    have hr := hsum (List.forall_mem_singleton.mpr ⟨hI.one, hmul⟩)
    have hfactors := List.forall_mem_append.mpr ⟨hbefore, List.forall_mem_cons.mpr ⟨hr, hafter⟩⟩
    exact ⟨hI.one, Power.madeOf_group hI hfactors⟩

theorem keepsTo_of_multipliesTo (h : MultipliesTo (SumKeepsTo I) t r) : KeepsTo I t r := by
  intro ht
  have hgroup : (Term.mk t.coefficient (Power.group t.factors)).MadeOf I :=
    ⟨ht.coefficient hI, Power.madeOf_group hI ht.factors⟩
  cases h with
  | zero => exact .number hI.zero
  | sum _ hu _ _ hsum =>
    have hu := (madeOf_of_spreads hI hu hgroup).toExpr hI
    exact hsum (List.forall_mem_singleton.mpr ⟨hI.one, hu⟩)
  | term _ hu => exact (madeOf_of_spreads hI hu hgroup).toExpr hI

omit [NumberText α] in
theorem keepsTo_of_becomes (h : Becomes (KeepsTo I) (SumKeepsTo I) (KeepsTo I) t r) :
    KeepsTo I t r := by
  intro ht
  cases h with
  | number   => exact ht
  | constant => exact ht
  | var      => exact ht
  | neg ha hr => exact hr (.neg (ha ht.of_neg))
  | sum _ ha hb hr =>
    have ⟨ha', hb'⟩ := ht.of_binary
    exact hr (List.forall_mem_singleton.mpr ⟨hI.one, .binary _ (ha ha') (hb hb')⟩)
  | mul ha hb hr => exact hr (.binary .mul (ha ht.of_binary.1) (hb ht.of_binary.2))
  | div ha hb    => exact .quotient hI (ha ht.of_binary.1) (hb ht.of_binary.2)
  | pow ha hb    => exact .power hI (ha ht.of_binary.1) (hb ht.of_binary.2)
  | call hargs =>
    have ⟨hn, hmade⟩ := ht.of_call
    exact .application hI (hargs.length_eq ▸ hn) (forall_of_forall₂ hargs hmade)

theorem MadeOf.sum (h : Gives (sum addends) r)
    (haddends : ∀ p ∈ addends, I.number p.1 ∧ p.2.MadeOf I) : r.MadeOf I :=
  sum_induct (fun _ _ => sumKeepsTo_of_sumsTo hI) (fun _ _ => keepsTo_of_multipliesTo hI) h haddends

theorem MadeOf.product (h : Gives (product t) r) (ht : t.MadeOf I) : r.MadeOf I :=
  have ⟨n, _, hr⟩ := h.exists_of_bind
  product_induct (fun _ _ => sumKeepsTo_of_sumsTo hI) (fun _ _ => keepsTo_of_multipliesTo hI)
    n t r hr ht

theorem MadeOf.canonicalAt (h : Gives (t.canonicalAt d) r) (ht : t.MadeOf I) : r.MadeOf I :=
  canonicalAt_induct (fun _ _ => sumKeepsTo_of_sumsTo hI) (fun _ _ => keepsTo_of_multipliesTo hI)
    (fun _ _ => keepsTo_of_becomes hI) d h ht

-- A canonical form is made of what the expression is made of.
theorem MadeOf.canonical (h : t.canonical config = .ok r) (ht : t.MadeOf I) : r.MadeOf I :=
  ht.canonicalAt hI (gives_of_run h)

end Expr

end InfixAlgebra
