import InfixAlgebra.Proofs.Exact.Canonical
import InfixAlgebra.Proofs.Normal.Kinds
import InfixAlgebra.Proofs.Polynomial.Identity

namespace InfixAlgebra

open Exact

variable {I : Interpretation ℚ}

def Term.Kind.linear (I : Interpretation ℚ) (names : String → Prop) : Term.Kind (Exact I) where
  Number x     := x ≠ none
  Product fs   := fs = [] ∨ ∃ x, names x ∧ fs = [.var x]
  zero         := nofun
  one          := nofun
  neg          := neg_ne_none
  add          := add_ne_none
  mul          := mul_ne_none
  nil          := .inl rfl
  atoms hfs f hf := by
    rcases hfs with rfl | ⟨x, _, rfl⟩
    case inl => cases hf
    case inr =>
      rw [List.mem_singleton.mp hf]
      exact ⟨rfl, nofun⟩

namespace Expr

-- Expressions in which nothing but a number is multiplied by an expression with variables.
inductive Linear : Expr (Exact I) → Prop
  | number (q : ℚ) : Linear (.number (some q))
  | var (name : String) : Linear (.var name)
  | neg {a : Expr (Exact I)} : Linear a → Linear (.neg a)
  | add {a b : Expr (Exact I)} : Linear a → Linear b → Linear (.add a b)
  | sub {a b : Expr (Exact I)} : Linear a → Linear b → Linear (.sub a b)
  | mul {a b : Expr (Exact I)} : Linear a → Linear b →
    (∀ name, ¬a.contains name) ∨ (∀ name, ¬b.contains name) → Linear (.mul a b)

variable {t r s a b a' b' : Expr (Exact I)} {names : String → Prop}

theorem Linear.of_sum {op : Operator} (ho : op = .add ∨ op = .sub) (h : (binary op a b).Linear) :
    a.Linear ∧ b.Linear := by
  cases h with
  | add ha hb   => exact ⟨ha, hb⟩
  | sub ha hb   => exact ⟨ha, hb⟩
  | mul _ _ _   => rcases ho with ho | ho <;> cases ho

-- Linear expressions are defined everywhere.
theorem Linear.denote_ne_none {values : String → Exact I} (h : t.Linear)
    (hvalues : ∀ name, values name ≠ none) : t.denote values ≠ none := by
  induction h with
  | number q           => nofun
  | var name           => exact hvalues name
  | neg _ ih           => exact neg_ne_none ih
  | add _ _ iha ihb    => exact add_ne_none iha ihb
  | sub _ _ iha ihb    =>
    change _ - _ ≠ _
    rw [Exact.sub_eq_add_neg]
    exact add_ne_none iha (neg_ne_none ihb)
  | mul _ _ _ iha ihb  => exact mul_ne_none iha ihb

variable [NumberText (Exact I)]

structure Scales (names : String → Prop) (t : Expr (Exact I)) : Prop where
  defined : t.coefficient ≠ none
  factors : (Term.Kind.linear I names).Product t.factors ∨
    ∃ s, t.factors = [s] ∧ s.isSum ∧ s.SumsUp (.linear I names)

theorem SumsUp.scales (h : t.SumsUp (.linear I names)) : t.Scales names := by
  by_cases ht : t.isSum
  case neg =>
    have hu := h.has ht
    exact ⟨hu.number, .inl hu.product⟩
  case pos =>
    refine ⟨?_, .inr ⟨t, factors_of_isSum ht, ht, h⟩⟩
    rw [coefficient, coefficientFrom_of_isAtom (isAtom_of_isSum ht)]
    exact one_ne_none

theorem Scales.neg (h : t.Scales names) : (neg t).Scales names where
  defined := by
    rw [coefficient, coefficientFrom, coefficientFrom_eq]
    exact mul_ne_none (neg_ne_none one_ne_none) h.defined
  factors := h.factors

theorem Scales.number_mul {x : Exact I} (hx : x ≠ none) (h : t.Scales names) :
    (mul (number x) t).Scales names where
  defined := by
    rw [coefficient, coefficientFrom, coefficientFrom_eq]
    exact mul_ne_none (mul_ne_none one_ne_none hx) h.defined
  factors := h.factors

theorem Scales.mul_number {x : Exact I} (hx : x ≠ none) (h : t.Scales names) :
    (mul t (number x)).Scales names where
  defined := mul_ne_none h.defined hx
  factors := by
    have hfactors : (mul t (number x)).factors = t.factors := List.append_nil _
    exact hfactors ▸ h.factors

-- Without variables there is nothing but a number.
theorem SumsUp.exists_number (h : t.SumsUp (.linear I fun _ => False)) :
    ∃ x : Exact I, x ≠ none ∧ t = number x := by
  obtain ⟨terms, hterms, hd, rfl⟩ := h
  have hnil : ∀ u ∈ terms, u.factors = [] :=
    fun u hu => (hterms u hu).1.product.resolve_right fun ⟨_, hx, _⟩ => hx
  cases terms with
  | nil => exact ⟨0, nofun, rfl⟩
  | cons u us =>
    have hu := hnil u List.mem_cons_self
    cases us with
    | nil =>
      refine ⟨u.coefficient, (hterms u List.mem_cons_self).1.number, ?_⟩
      obtain ⟨x, fs⟩ := u
      cases hu
      rfl
    | cons v vs =>
      have hv := hnil v (List.mem_cons_of_mem _ List.mem_cons_self)
      refine absurd ?_ ((List.pairwise_cons.mp hd).1 v List.mem_cons_self)
      change u.factors == v.factors
      rw [hu, hv]
      rfl

-- What products, sums and canonical forms do with linear expressions: what results is a sum of
-- different terms, and stands for the same.

def Linearizes (t r : Expr (Exact I)) : Prop :=
  t.Linear → ∀ names : String → Prop, (∀ x, t.contains x → names x) →
    r.SumsUp (.linear I names) ∧ ∀ values, Preserves values t r

def LinearizesProduct (t r : Expr (Exact I)) : Prop :=
  ∀ names, t.Scales names → r.SumsUp (.linear I names) ∧ ∀ values, Preserves values t r

def LinearizesSum (addends : List (Exact I × Expr (Exact I))) (r : Expr (Exact I)) : Prop :=
  ∀ names, (∀ p ∈ addends, p.1 ≠ none ∧ p.2.HasTerms (.linear I names)) →
    r.SumsUp (.linear I names) ∧ ∀ values, PreservesSum values addends r

theorem linearizesSum_of_sumsTo {Q : Expr (Exact I) → Expr (Exact I) → Prop}
    {addends : List (Exact I × Expr (Exact I))} (h : SumsTo Q addends r) :
    LinearizesSum addends r := by
  intro names haddends
  have hterms : ∀ u ∈ scaledTermsOfAll addends, u.Has (.linear I names) := by
    intro u hu
    have ⟨p, hp, hu⟩ := List.mem_flatMap.mp hu
    exact (haddends p hp).2 p.1 (haddends p hp).1 u hu
  have ⟨hunscaled, hsum⟩ := h.sumsUp hterms
  exact ⟨hsum, fun values => preservesSum_of_sumsTo (h.of_not_scalesSum hunscaled)⟩

theorem LinearizesSum.of_hasTerms (h : LinearizesSum [(1, t)] r)
    (ht : t.HasTerms (.linear I names)) :
    r.SumsUp (.linear I names) ∧ ∀ values, Preserves values t r := by
  have ⟨hsum, hvalues⟩ := h names (List.forall_mem_singleton.mpr ⟨one_ne_none, ht⟩)
  refine ⟨hsum, fun values => ?_⟩
  have hvalue := hvalues values
  rwa [PreservesSum, denoteAddends_singleton] at hvalue

-- There is at most one factor, so that nothing is grouped.
theorem Scales.group_eq (h : t.Scales names) :
    Power.group t.factors = t.factors ∧ ¬(Term.ofExpr t).scalesSum := by
  have hsingle {f : Expr (Exact I)} (hf : t.factors = [f]) (hp : Power.ofExpr f = ⟨f, 1⟩) :
      Power.group t.factors = t.factors ∧ ¬(Term.ofExpr t).scalesSum := by
    simp [hf, Power.group_singleton hp, Term.scalesSum, Term.ofExpr]
  obtain (hnil | ⟨x, _, hx⟩) | ⟨s, hs, hsum, _⟩ := h.factors
  · simp [hnil, Term.scalesSum, Term.ofExpr, Power.group, SortKey.sort]
  · exact hsingle hx rfl
  · exact hsingle hs (Power.ofExpr_of_isSum hsum)

theorem linearizesProduct_of_multipliesTo (h : MultipliesTo LinearizesSum t r) :
    LinearizesProduct t r := by
  intro names ht
  have ⟨hgroup, hscales⟩ := ht.group_eq
  constructor
  · refine h.sumsUp (fun u hu hr => (hr.of_hasTerms hu).1) ht.defined ?_
    rw [hgroup]
    exact ht.factors.imp_right fun ⟨s, hf, hs, hsum⟩ => ⟨s, hf, hs, hsum.hasTerms⟩
  · intro values
    have hvalue : Refines (t.denote values) (Term.denote values (Term.ofExpr t)) :=
      .of_eq (denote_eq t)
    obtain ⟨hz, rfl⟩ | ⟨hne, ⟨s, hf, hs, hr⟩ | ⟨_, rfl⟩⟩ := h.cases_of_group hgroup hscales
    · rw [Preserves, denote_eq t, Exact.eq_of_beq hz]
      exact .zero_mul _
    · have hsum : s.SumsUp (.linear I names) := by
        obtain hp | ⟨s', hf', _, hsum⟩ := ht.factors
        · have hmem : s ∈ t.factors := hf ▸ List.mem_singleton_self s
          exact absurd hs (Term.Kind.atoms _ hp s hmem).2
        · exact List.singleton_inj.mp (hf.symm.trans hf') ▸ hsum
      have hr := (hr.of_hasTerms (hsum.hasTerms.toExpr hf hs ht.defined hne)).2 values
      exact (hvalue.trans (Term.refines_toExpr _)).trans hr
    · exact hvalue.trans (Term.refines_toExpr _)

theorem sumsUp_number {x : Exact I} (hx : x ≠ none) :
    (number x).SumsUp (.linear I names) := by
  by_cases hzero : x == 0
  case pos => exact Exact.eq_of_beq hzero ▸ sumsUp_zero
  case neg =>
    have hu : (Term.mk x []).Has (.linear I names) := ⟨hx, .inl rfl⟩
    exact sumsUp_toExpr hu hzero

theorem sumsUp_var {x : String} (hx : names x) :
    (var x : Expr (Exact I)).SumsUp (.linear I names) := by
  have hu : (Term.mk 1 [.var x]).Has (.linear I names) := ⟨one_ne_none, .inr ⟨x, hx, rfl⟩⟩
  have hvar : (Term.mk 1 [.var x] : Term (Exact I)).toExpr = .var x := Term.toExpr_one
  exact hvar ▸ sumsUp_toExpr hu Scalar.Regular.not_one_beq_zero

theorem Linearizes.exists_number (h : Linearizes t r) (ht : t.Linear)
    (hclosed : ∀ name, ¬t.contains name) : ∃ x : Exact I, x ≠ none ∧ r = number x :=
  (h ht (fun _ => False) hclosed).1.exists_number

theorem linearizes_of_becomes (h : Becomes LinearizesProduct LinearizesSum Linearizes t r) :
    Linearizes t r := by
  intro ht names hnames
  cases h with
  | number x =>
    cases ht
    exact ⟨sumsUp_number nofun, fun _ => .refl _⟩
  | constant => cases ht
  | var name => exact ⟨sumsUp_var (hnames name (beq_self_eq_true name)), fun _ => .refl _⟩
  | @neg a a' _ ha hr =>
    cases ht with
    | neg ht =>
      have ⟨hsum, hvalue⟩ := ha ht names hnames
      have ⟨hsum', hvalue'⟩ := hr names hsum.scales.neg
      exact ⟨hsum', fun values => (Refines.neg (hvalue values)).trans (hvalue' values)⟩
  | @sum op a a' b b' _ ho ha hb hr =>
    have ⟨hta, htb⟩ := ht.of_sum ho
    have ⟨hsa, hva⟩ := ha hta names fun x hx => hnames x (by simp [contains, hx])
    have ⟨hsb, hvb⟩ := hb htb names fun x hx => hnames x (by simp [contains, hx])
    have ⟨hsum, hvalue⟩ := hr.of_hasTerms (hsa.hasTerms.sum ho hsb.hasTerms)
    exact ⟨hsum, fun values => (Refines.apply op (hva values) (hvb values)).trans (hvalue values)⟩
  | @mul a a' b b' _ ha hb hr =>
    cases ht with
    | mul hta htb hclosed =>
      have ⟨hsa, hva⟩ := ha hta names fun x hx => hnames x (by simp [contains, hx])
      have ⟨hsb, hvb⟩ := hb htb names fun x hx => hnames x (by simp [contains, hx])
      have hscales : (Expr.mul a' b').Scales names := by
        cases hclosed with
        | inl hclosed =>
          obtain ⟨x, hx, rfl⟩ := ha.exists_number hta hclosed
          exact hsb.scales.number_mul hx
        | inr hclosed =>
          obtain ⟨x, hx, rfl⟩ := hb.exists_number htb hclosed
          exact hsa.scales.mul_number hx
      have ⟨hsum, hvalue⟩ := hr names hscales
      exact ⟨hsum, fun values =>
        (Refines.apply .mul (hva values) (hvb values)).trans (hvalue values)⟩
  | div  => cases ht
  | pow  => cases ht
  | call => cases ht

-- The canonical form of a linear expression is a sum of a number and numbers times different
-- variables, and stands for the same.
theorem linearizes_of_canonical {config : Config (Exact I)} (h : t.canonical config = .ok r) :
    Linearizes t r :=
  canonical_induct (fun _ _ => linearizesSum_of_sumsTo) (fun _ _ => linearizesProduct_of_multipliesTo)
    (fun _ _ => linearizes_of_becomes) h

end Expr

end InfixAlgebra
