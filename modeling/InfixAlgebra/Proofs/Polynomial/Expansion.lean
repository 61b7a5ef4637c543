import InfixAlgebra.Proofs.Fraction.Expansion
import InfixAlgebra.Proofs.Normal.Fixed
import InfixAlgebra.Proofs.Polynomial.Denotation

namespace InfixAlgebra

open Metered Merging Exact Scalar.Regular

variable {I : Interpretation ℚ}

namespace Expr

variable {t r s a b : Expr (Exact I)} {x : Exact I}

structure IsProduct (t : Expr (Exact I)) : Prop where
  defined : t.coefficient ≠ none
  powers  : ∀ f ∈ t.factors, f.IsPower

theorem IsProduct.mul (ha : a.IsProduct) (hb : b.IsProduct) : (mul a b).IsProduct where
  defined := by
    rw [coefficient, coefficientFrom, coefficientFrom_eq]
    exact mul_ne_none ha.defined hb.defined
  powers  := List.forall_mem_append.mpr ⟨ha.powers, hb.powers⟩

theorem IsProduct.neg (ha : a.IsProduct) : (neg a).IsProduct where
  defined := by
    rw [coefficient, coefficientFrom, coefficientFrom_eq]
    exact mul_ne_none (neg_ne_none one_ne_none) ha.defined
  powers  := ha.powers

theorem isProduct_zero : (number 0 : Expr (Exact I)).IsProduct where
  defined := nofun
  powers  := nofun

theorem IsProduct.not_isSum (h : t.IsProduct) : ¬t.isSum := by
  intro hs
  have hmem : t ∈ t.factors := by
    rw [factors_of_isSum hs]
    exact List.mem_singleton_self t
  exact (h.powers t hmem).not_isSum hs

theorem sign_ne_none (p : Bool) : (sign p : Exact I) ≠ none := by
  cases p <;> nofun

variable [NumberText (Exact I)]

def HasMonomials (t : Expr (Exact I)) : Prop :=
  ∀ x : Exact I, x ≠ none → ∀ u ∈ t.scaledTerms x, u.Monomial

theorem IsProduct.hasMonomials (h : t.IsProduct) (hg : Grouped t.factors) : t.HasMonomials := by
  intro x hx
  have hsum (s : Expr (Exact I)) (hf : t.factors = [s]) : ¬s.isSum :=
    (h.powers s (hf ▸ List.mem_singleton_self s)).not_isSum
  rw [scaledTerms_of_factors_ne hsum, List.forall_mem_singleton]
  exact ⟨mul_ne_none hx h.defined, h.powers, hg⟩

theorem HasMonomials.sum {op : Operator} (ho : op = .add ∨ op = .sub) (ha : a.HasMonomials)
    (hb : b.HasMonomials) : (binary op a b).HasMonomials := by
  intro x hx
  rcases ho with rfl | rfl
  case inl =>
    rw [scaledTerms, List.forall_mem_append]
    exact ⟨ha x hx, hb x hx⟩
  case inr =>
    rw [scaledTerms, List.forall_mem_append]
    exact ⟨ha x hx, hb (-x) (neg_ne_none hx)⟩

-- A number in front of a sum goes to its terms.
theorem HasMonomials.of_factors (h : s.HasMonomials) (hf : t.factors = [s]) (hs : s.isSum)
    (hc : t.coefficient ≠ none) : t.HasMonomials := by
  intro x hx
  by_cases ht : t.isSum
  case pos =>
    rw [factors_of_isSum ht] at hf
    exact List.singleton_inj.mp hf ▸ h x hx
  case neg =>
    rw [scaledTerms_of_some (scaledSum?_of_factors hf hs ht)]
    exact h _ (mul_ne_none hx hc)

end Expr

variable [NumberText (Exact I)] {t r s a b : Expr (Exact I)} {terms : List (Term (Exact I))}
  {u : Term (Exact I)}

theorem Term.Monomial.factors_toExpr (h : u.Monomial) (hne : ¬u.coefficient == 0) :
    u.toExpr.coefficient = u.coefficient ∧ u.toExpr.factors = u.factors := by
  have hatoms : ∀ f ∈ u.factors, f.isAtom := fun f hf => (h.powers f hf).isAtom
  exact ⟨coefficient_toExpr hne hatoms, Term.factors_toExpr hne hatoms⟩

theorem Term.Monomial.isProduct_toExpr (h : u.Monomial) (hne : ¬u.coefficient == 0) :
    u.toExpr.IsProduct := by
  have ⟨hc, hf⟩ := h.factors_toExpr hne
  exact ⟨hc ▸ h.defined, hf ▸ h.powers⟩

theorem Term.Monomial.hasMonomials_toExpr (h : u.Monomial) (hne : ¬u.coefficient == 0) :
    u.toExpr.HasMonomials :=
  (h.isProduct_toExpr hne).hasMonomials ((h.factors_toExpr hne).2 ▸ h.grouped)

namespace Expr

-- Sums of different monomials as canonical sums are written.
def Expanded (t : Expr (Exact I)) : Prop :=
  ∃ terms, (∀ u ∈ terms, u.Monomial ∧ ¬u.coefficient == 0) ∧ Term.merging.Distinct terms ∧
    t = Term.sumOf terms

theorem expanded_zero : (number 0 : Expr (Exact I)).Expanded :=
  ⟨[], nofun, .nil, rfl⟩

theorem expanded_toExpr (h : u.Monomial) (hne : ¬u.coefficient == 0) : u.toExpr.Expanded :=
  ⟨[u], List.forall_mem_singleton.mpr ⟨h, hne⟩, List.pairwise_singleton _ _, rfl⟩

theorem expanded_number {x : Exact I} (hx : x ≠ none) : (number x).Expanded := by
  by_cases h : x == 0
  case pos => exact Exact.eq_of_beq h ▸ expanded_zero
  case neg =>
    have hu : (Term.mk x []).Monomial := ⟨hx, nofun, ⟨.nil, .nil⟩⟩
    exact expanded_toExpr hu h

theorem expanded_of_isPower (h : t.IsPower) : t.Expanded := by
  have hu : (Term.mk 1 [t]).Monomial :=
    ⟨one_ne_none, List.forall_mem_singleton.mpr h, List.pairwise_singleton _ _, .singleton _⟩
  have ht : (Term.mk 1 [t]).toExpr = t := Term.toExpr_one
  exact ht ▸ expanded_toExpr hu not_one_beq_zero

-- Sums are written from their first term on.
@[elab_as_elim]
theorem Expanded.induct {motive : Expr (Exact I) → Prop} (h : t.Expanded) (zero : motive (number 0))
    (term : ∀ u : Term (Exact I), u.Monomial → ¬u.coefficient == 0 → motive u.toExpr)
    (sum : ∀ op a (u : Term (Exact I)), op = .add ∨ op = .sub → motive a → u.Monomial →
      ¬u.coefficient == 0 → motive (binary op a u.toExpr)) : motive t := by
  obtain ⟨terms, hterms, _, rfl⟩ := h
  unfold Term.sumOf
  have hperm := SortKey.perm_sort Term.sortKey terms
  replace hterms : ∀ u ∈ SortKey.sort Term.sortKey terms, u.Monomial ∧ ¬u.coefficient == 0 :=
    fun u hu => hterms u (hperm.mem_iff.mp hu)
  cases hs : SortKey.sort Term.sortKey terms with
  | nil => exact zero
  | cons v vs =>
    rw [hs] at hterms
    clear hs hperm
    dsimp only
    induction vs using List.reverseRecOn with
    | nil =>
      have ⟨hv, hne⟩ := hterms v List.mem_cons_self
      exact term v hv hne
    | append_singleton vs w ih =>
      rw [← List.cons_append] at hterms
      have ⟨hvs, hw⟩ := List.forall_mem_append.mp hterms
      have ⟨hw, hne⟩ := hw w (List.mem_singleton_self w)
      rw [List.foldl_concat]
      unfold Term.sumOf.append
      split
      case isTrue hlt =>
        refine sum .sub _ ⟨-w.coefficient, w.factors⟩ (.inr rfl) (ih hvs) ?_ (not_neg_beq_zero hlt)
        exact ⟨neg_ne_none hw.defined, hw.powers, hw.grouped⟩
      case isFalse => exact sum .add _ w (.inl rfl) (ih hvs) hw hne

theorem Expanded.hasMonomials (h : t.Expanded) : t.HasMonomials := by
  refine h.induct ?zero ?term ?sum
  case zero => exact isProduct_zero.hasMonomials ⟨.nil, .nil⟩
  case term => exact fun u hu hne => hu.hasMonomials_toExpr hne
  case sum  => exact fun op a u ho ha hu hne => ha.sum ho (hu.hasMonomials_toExpr hne)

-- What such a sum adds up are products.
theorem Expanded.isProduct_of_mem_addends (h : t.Expanded) (p : Bool) :
    ∀ s ∈ t.addends p, s.2.IsProduct := by
  have single (p : Bool) {t : Expr (Exact I)} (ht : t.IsProduct) :
      ∀ s ∈ t.addends p, s.2.IsProduct := by
    rw [addends_of_not_isSum p ht.not_isSum, List.forall_mem_singleton]
    exact ht
  refine h.induct ?zero ?term ?sum
  case zero => exact single p isProduct_zero
  case term => exact fun u hu hne => single p (hu.isProduct_toExpr hne)
  case sum =>
    intro op a u ho ha hu hne
    have hu := hu.isProduct_toExpr hne
    rcases ho with rfl | rfl
    case inl => exact List.forall_mem_append.mpr ⟨ha, single p hu⟩
    case inr => exact List.forall_mem_append.mpr ⟨ha, single (!p) hu⟩

theorem Expanded.isProduct (h : t.Expanded) (ht : ¬t.isSum) : t.IsProduct := by
  have hall := h.isProduct_of_mem_addends true
  rw [addends_of_not_isSum true ht, List.forall_mem_singleton] at hall
  exact hall

theorem Expanded.normal (h : t.Expanded) : t.Normal := by
  have ⟨terms, hterms, hd, ht⟩ := h
  rw [ht]
  exact Term.normal_sumOf (fun u hu => (hterms u hu).1.settled (hterms u hu).2) hd

-- What products and sums do with expressions of this kind.

def ExpandsProduct (t r : Expr (Exact I)) : Prop :=
  (t.IsProduct ∨ ∃ s, t.factors = [s] ∧ s.isSum ∧ s.Expanded ∧ t.coefficient ≠ none) → r.Expanded

def ExpandsSum (addends : List (Exact I × Expr (Exact I))) (r : Expr (Exact I)) : Prop :=
  (∀ p ∈ addends, p.1 ≠ none ∧ p.2.HasMonomials) → r.Expanded

variable {addends : List (Exact I × Expr (Exact I))}

theorem expandsSum_of_sumsTo {Q : Expr (Exact I) → Expr (Exact I) → Prop}
    (h : SumsTo Q addends r) : ExpandsSum addends r := by
  intro haddends
  obtain ⟨terms, hsettles, rfl⟩ := h
  rw [Term.mergeAll_eq] at hsettles
  have hd : Term.merging.Distinct (Term.merging.addAll [] (scaledTermsOfAll addends)) :=
    distinct_addAll Term.stable_merging .nil
  have hall : ∀ u ∈ Term.merging.addAll [] (scaledTermsOfAll addends), u.Monomial := by
    refine forall_addAll (fun _ _ _ => .join) nofun fun u hu => ?_
    have ⟨p, hp, hu⟩ := List.mem_flatMap.mp hu
    exact (haddends p hp).2 p.1 (haddends p hp).1 u hu
  generalize Term.merging.addAll [] (scaledTermsOfAll addends) = merged at hsettles hd hall
  cases hsettles with
  | done =>
    refine ⟨_, fun u hu => ?_, Term.distinct_kept hd, rfl⟩
    have ⟨hmem, hne, _⟩ := Term.mem_kept.mp hu
    exact ⟨hall u hmem, hne⟩
  | round hne =>
    have ⟨u, hu⟩ := List.exists_mem_of_ne_nil _ hne
    have ⟨hmem, _, hscales⟩ := Term.mem_scaled.mp hu
    exact absurd hscales (hall u hmem).not_scalesSum

theorem group_singleton (hs : s.Normal) : Power.group [s] = [s] := by
  rw [Power.group_eq_sort (List.forall_mem_singleton.mpr hs) (List.pairwise_singleton _ _)]
  exact SortKey.sort_eq_self (.singleton s)

theorem expandsProduct_of_multipliesTo (h : MultipliesTo ExpandsSum t r) : ExpandsProduct t r := by
  rintro (ht | ⟨s, hf, hs, hexp, hc⟩)
  case inl =>
    obtain ⟨hgrouped, hpowers⟩ := Power.grouped_group_of_isPower ht.powers
    have hu : (Term.mk t.coefficient (Power.group t.factors)).Monomial :=
      ⟨ht.defined, hpowers, hgrouped⟩
    cases h with
    | zero => exact expanded_zero
    | sum _ hspread hf hs =>
      rw [eq_of_spreads hspread hu.not_scalesSum] at hf
      have hmem := hf ▸ List.mem_singleton_self _
      exact absurd hs (hpowers _ hmem).not_isSum
    | term hne hspread =>
      rw [eq_of_spreads hspread hu.not_scalesSum]
      exact expanded_toExpr hu hne
  case inr =>
    have hgroup : Power.group t.factors = [s] := hf ▸ group_singleton hexp.normal
    have hscales : ¬(Term.mk t.coefficient [s]).scalesSum := by simp [Term.scalesSum]
    cases h with
    | zero => exact expanded_zero
    | @sum u s' _ hne hspread hf' hs' hsum =>
      rw [hgroup] at hspread
      obtain rfl := eq_of_spreads hspread hscales
      have hu : Term.ofExpr (Term.mk t.coefficient [s]).toExpr = _ :=
        Term.ofExpr_toExpr hne (List.forall_mem_singleton.mpr (isAtom_of_isSum hs))
      refine hsum (List.forall_mem_singleton.mpr ⟨one_ne_none, ?_⟩)
      refine hexp.hasMonomials.of_factors (congrArg Term.factors hu) hs ?_
      rw [show (Term.mk t.coefficient [s]).toExpr.coefficient = _ from congrArg Term.coefficient hu]
      exact hc
    | term _ hspread hsingle =>
      rw [hgroup] at hspread
      rw [eq_of_spreads hspread hscales] at hsingle
      exact absurd hs (hsingle s rfl)

theorem expandsProduct_of_gives (h : Gives (product t) r) : ExpandsProduct t r :=
  have ⟨n, _, hr⟩ := h.exists_of_bind
  product_induct (fun _ _ => expandsSum_of_sumsTo) (fun _ _ => expandsProduct_of_multipliesTo)
    n t r hr

theorem expandsSum_of_gives (h : Gives (sum addends) r) : ExpandsSum addends r :=
  sum_induct (fun _ _ => expandsSum_of_sumsTo) (fun _ _ => expandsProduct_of_multipliesTo) h

theorem Expanded.of_sum {op : Operator} (ho : op = .add ∨ op = .sub) (ha : a.Expanded)
    (hb : b.Expanded) (h : ExpandsSum [(1, binary op a b)] r) : r.Expanded :=
  h (List.forall_mem_singleton.mpr ⟨one_ne_none, ha.hasMonomials.sum ho hb.hasMonomials⟩)

theorem Expanded.of_neg (ha : a.Expanded) (h : ExpandsProduct (.neg a) r) : r.Expanded := by
  by_cases hs : a.isSum
  case neg => exact h (.inl (ha.isProduct hs).neg)
  case pos =>
    refine h (.inr ⟨a, factors_of_isSum hs, hs, ha, ?_⟩)
    rw [coefficient, coefficientFrom, coefficientFrom_of_isAtom (isAtom_of_isSum hs)]
    exact neg_ne_none one_ne_none

theorem Expanded.of_distributesTo (ha : a.Expanded) (hb : b.Expanded)
    (h : DistributesTo ExpandsProduct ExpandsSum a b r) : r.Expanded := by
  cases h with
  | product hna hnb hr => exact hr (.inl ((ha.isProduct hna).mul (hb.isProduct hnb)))
  | @sum products _ hproducts hr =>
    have hall : ∀ st ∈ a.addends true ×ˢ b.addends true, st.1.2.IsProduct ∧ st.2.2.IsProduct := by
      intro (s, t) hst
      have ⟨hs, ht⟩ := List.mem_product.mp hst
      exact ⟨ha.isProduct_of_mem_addends true s hs, hb.isProduct_of_mem_addends true t ht⟩
    refine hr (forall_of_forall₂ (hproducts.imp fun st p hp hst => ?_) hall)
    exact ⟨hp.1 ▸ sign_ne_none _, (hp.2 (.inl (hst.1.mul hst.2))).hasMonomials⟩

end Expr

end InfixAlgebra
