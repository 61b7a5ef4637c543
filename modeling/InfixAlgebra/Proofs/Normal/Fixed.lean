import InfixAlgebra.Proofs.Canonical.Induction
import InfixAlgebra.Proofs.Normal.Basic

namespace InfixAlgebra

open Scalar.Regular

variable {α : Type} [Scalar α] [NumberText α]

namespace Expr

variable {t r a b : Expr α} {Q : Expr α → Expr α → Prop} {S : List (α × Expr α) → Expr α → Prop}

theorem eq_of_sumsTo (h : SumsTo Q [(1, t)] r) (ht : t.ReducedSum) : r = t := by
  have ⟨terms, hs, hr⟩ := h
  have hterms : scaledTermsOfAll [(1, t)] = t.scaledTerms 1 := List.append_nil _
  rw [hterms, Term.mergeAll_eq, Merging.addAll_nil ht.distinct] at hs
  have hnonzero : Term.nonzero (t.scaledTerms 1) = t.scaledTerms 1 :=
    List.filter_eq_self.mpr fun u hu => by simpa using ht.nonzero u hu
  have hscaled : Term.scaled (t.scaledTerms 1) = [] := by
    rw [Term.scaled, hnonzero]
    exact List.filter_eq_nil_iff.mpr ht.unscaled
  have hkept : Term.kept (t.scaledTerms 1) = t.scaledTerms 1 := by
    rw [Term.kept, hnonzero]
    exact List.filter_eq_self.mpr fun u hu => by simpa using ht.unscaled u hu
  cases hs with
  | done        => rw [hr, hkept, ht.written]
  | round hne _ => exact absurd hscaled hne

omit [NumberText α] in
theorem quotient_eq_div (h : ReducedQuotient a b) : quotient a b = .div a b := by
  have hzero : ¬(a.isNumber 0 && !b.isNumber 0) := by
    intro hab
    have ⟨ha, hb⟩ := Bool.and_eq_true_iff.mp hab
    rw [h.dividend ha] at hb
    cases hb
  have hone : ¬(a == b && a.number?.isNone) := by
    intro hab
    have ⟨heq, ha⟩ := Bool.and_eq_true_iff.mp hab
    rw [Option.isNone_iff_eq_none] at ha
    have hsome := h.distinct heq
    rw [ha] at hsome
    cases hsome
  rw [quotient, h.unfolded, Option.getD_none, if_neg h.divisor, if_neg hzero, if_neg hone]

omit [NumberText α] in
theorem power_eq_pow (h : ReducedPower a b) : power a b = .pow a b := by
  have hone : ¬(b.isNumber 0 || a.isNumber 1) :=
    fun hab => (Bool.or_eq_true_iff.mp hab).elim h.nonzero h.base
  rw [power, if_neg hone, if_neg h.exponent, h.unfolded, Option.getD_none]

omit [NumberText α] in
theorem application_eq_call {f : Elementary} {args : List (Expr α)} (h : ReducedCall f args) :
    application f args = .call f args := by
  unfold application
  split
  case h_1 x => exact if_neg (h x rfl)
  case h_2   => rfl

theorem eq_of_forall₂ {ts rs : List (Expr α)} (h : List.Forall₂ (fun t r => t.Normal → r = t) ts rs)
    (hts : ∀ t ∈ ts, t.Normal) : rs = ts := by
  induction h with
  | nil          => rfl
  | cons h _ ih =>
    have ⟨ht, hts⟩ := List.forall_mem_cons.mp hts
    rw [h ht, ih hts]

theorem eq_of_spreads {u u' : Term α} (h : Spreads S u u') (hu : ¬u.scalesSum) : u' = u := by
  cases h with
  | none    => rfl
  | into hs => exact absurd hs hu

variable [Scalar.Regular α]

theorem eq_of_multipliesTo (h : MultipliesTo S t r) (ht : t.Normal) (hr : t.ReducedProduct) :
    r = t := by
  have hgroup : Power.group t.factors = t.factors := by
    have hnormal : ∀ f ∈ t.factors, f.Normal := fun f hf => ht.of_mem_factors hf
    rw [Power.group_eq_sort hnormal hr.reduced.grouped.distinct]
    exact SortKey.sort_eq_self hr.reduced.grouped.ordered
  have hspread {u : Term α} (hu : Spreads S ⟨t.coefficient, Power.group t.factors⟩ u) :
      u = Term.ofExpr t := by
    rw [hgroup] at hu
    exact eq_of_spreads hu hr.reduced.not_scalesSum
  cases h with
  | zero hz          => exact absurd hz hr.reduced.nonzero
  | sum _ hu hf hs _ =>
    rw [hspread hu] at hf
    exact absurd hs (hr.reduced.not_isSum hf)
  | term _ hu _      => rw [hspread hu, hr.written]

omit [Scalar.Regular α] in
-- What is kept if the parts in normal form are.
theorem eq_of_becomes
    (h : Becomes (fun t r => t.Normal → t.ReducedProduct → r = t)
      (fun addends r => ∀ t, addends = [(1, t)] → t.ReducedSum → r = t)
      (fun t r => t.Normal → r = t) t r) (ht : t.Normal) : r = t := by
  cases h with
  | number   => rfl
  | constant => rfl
  | var      => rfl
  | neg ha hr =>
    cases ht with
    | neg ha' hreduced =>
      rw [ha ha'] at hr
      exact hr (.neg ha' hreduced) hreduced
  | sum ho ha hb hr =>
    cases ht with
    | add ha' hb' hreduced =>
      rw [ha ha', hb hb'] at hr
      exact hr _ rfl hreduced
    | sub ha' hb' hreduced =>
      rw [ha ha', hb hb'] at hr
      exact hr _ rfl hreduced
    | _ => cases ho <;> contradiction
  | mul ha hb hr =>
    cases ht with
    | mul ha' hb' hreduced =>
      rw [ha ha', hb hb'] at hr
      exact hr (.mul ha' hb' hreduced) hreduced
  | div ha hb =>
    cases ht with
    | div ha' hb' hreduced => rw [ha ha', hb hb', quotient_eq_div hreduced]
  | pow ha hb =>
    cases ht with
    | pow ha' hb' hreduced => rw [ha ha', hb hb', power_eq_pow hreduced]
  | call hargs =>
    cases ht with
    | call hargs' hreduced => rw [eq_of_forall₂ hargs hargs', application_eq_call hreduced]

-- An expression in normal form is its own canonical form.
theorem canonical_of_normal {config : Config α} (h : t.canonical config = .ok r) (ht : t.Normal) :
    r = t := by
  refine canonical_induct ?_ (fun _ _ hr => eq_of_multipliesTo hr) (fun _ _ => eq_of_becomes) h ht
  rintro _ r hr t rfl ht
  exact eq_of_sumsTo hr ht

end Expr

end InfixAlgebra
