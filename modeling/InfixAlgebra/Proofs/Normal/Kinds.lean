import InfixAlgebra.Proofs.Normal.Fixed
import InfixAlgebra.Proofs.Normal.Sums

namespace InfixAlgebra

open Merging Scalar.Regular

variable {α : Type} [Scalar α]

-- Kinds of terms that sums and products do not lead out of. No factor is a sum, so that there is
-- nothing that a number would have to go into.
structure Term.Kind (α : Type) [Scalar α] where
  Number : α → Prop
  Product : List (Expr α) → Prop
  zero : Number 0
  one : Number 1
  neg {x : α} : Number x → Number (-x)
  add {x y : α} : Number x → Number y → Number (x + y)
  mul {x y : α} : Number x → Number y → Number (x * y)
  nil : Product []
  atoms {fs : List (Expr α)} : Product fs → ∀ f ∈ fs, f.isAtom ∧ ¬f.isSum

variable {k : Term.Kind α}

namespace Term

structure Has (k : Kind α) (u : Term α) : Prop where
  number  : k.Number u.coefficient
  product : k.Product u.factors

variable {u v : Term α}

theorem Has.join (hv : v.Has k) (hu : u.Has k) : (merging.join v u).Has k :=
  ⟨k.add hv.number hu.number, hv.product⟩

theorem Has.neg (hu : u.Has k) : Has k ⟨-u.coefficient, u.factors⟩ :=
  ⟨k.neg hu.number, hu.product⟩

theorem not_scalesSum_of_product (hf : k.Product u.factors) : ¬u.scalesSum := by
  intro hs
  simp only [scalesSum, Bool.and_eq_true, List.any_eq_true] at hs
  obtain ⟨f, hmem, hsum⟩ := hs.2
  exact (k.atoms hf f hmem).2 hsum

theorem Has.not_scalesSum (hu : u.Has k) : ¬u.scalesSum :=
  not_scalesSum_of_product hu.product

end Term

namespace Expr

variable {t r s a b : Expr α} {x : α}

def HasTerms (k : Term.Kind α) (t : Expr α) : Prop :=
  ∀ x, k.Number x → ∀ u ∈ t.scaledTerms x, u.Has k

theorem HasTerms.sum {op : Operator} (ho : op = .add ∨ op = .sub) (ha : a.HasTerms k)
    (hb : b.HasTerms k) : (binary op a b).HasTerms k := by
  intro x hx
  rcases ho with rfl | rfl
  case inl =>
    rw [scaledTerms, List.forall_mem_append]
    exact ⟨ha x hx, hb x hx⟩
  case inr =>
    rw [scaledTerms, List.forall_mem_append]
    exact ⟨ha x hx, hb (-x) (k.neg hx)⟩

-- A number in front of a sum goes to its terms.
theorem HasTerms.of_factors (h : s.HasTerms k) (hf : t.factors = [s]) (hs : s.isSum)
    (hc : k.Number t.coefficient) : t.HasTerms k := by
  intro x hx
  by_cases ht : t.isSum
  case pos =>
    rw [factors_of_isSum ht] at hf
    exact List.singleton_inj.mp hf ▸ h x hx
  case neg =>
    rw [scaledTerms_of_some (scaledSum?_of_factors hf hs ht)]
    exact h _ (k.mul hx hc)

theorem hasTerms_of_has (h : (Term.ofExpr t).Has k) : t.HasTerms k := by
  intro x hx
  have hsum (s : Expr α) (hf : t.factors = [s]) : ¬s.isSum := by
    have hmem : s ∈ t.factors := hf ▸ List.mem_singleton_self s
    exact (k.atoms h.product s hmem).2
  rw [scaledTerms_of_factors_ne hsum, List.forall_mem_singleton]
  exact ⟨k.mul hx h.number, h.product⟩

variable [NumberText α]

def SumsUp (k : Term.Kind α) (t : Expr α) : Prop :=
  ∃ terms, (∀ u ∈ terms, u.Has k ∧ ¬u.coefficient == 0) ∧ Term.merging.Distinct terms ∧
    t = Term.sumOf terms

theorem sumsUp_zero : (number 0 : Expr α).SumsUp k :=
  ⟨[], nofun, .nil, rfl⟩

theorem sumsUp_toExpr {u : Term α} (hu : u.Has k) (hne : ¬u.coefficient == 0) :
    u.toExpr.SumsUp k :=
  ⟨[u], List.forall_mem_singleton.mpr ⟨hu, hne⟩, List.pairwise_singleton _ _, rfl⟩

end Expr

theorem Expr.has_zero : (Term.ofExpr (number 0 : Expr α)).Has k where
  number  := k.mul k.one k.zero
  product := k.nil

-- Where no coefficient has to go into a sum, there is only one way for a sum or a product to go.

namespace Term

variable {P : Expr α → Expr α → Prop} {terms result : List (Term α)}

theorem scaled_eq_nil (h : ∀ u ∈ terms, ¬u.scalesSum) : scaled terms = [] :=
  List.filter_eq_nil_iff.mpr fun u hu => h u (List.mem_of_mem_filter hu)

theorem eq_kept_of_settles (h : Settles P terms result) (hu : ∀ u ∈ terms, ¬u.scalesSum) :
    result = kept terms := by
  cases h with
  | done        => rfl
  | round hne _ => exact absurd (scaled_eq_nil hu) hne

end Term

namespace Expr

variable [NumberText α] {t r s : Expr α} {P Q : Expr α → Expr α → Prop}
  {S : List (α × Expr α) → Expr α → Prop} {addends : List (α × Expr α)}

theorem SumsTo.of_not_scalesSum (h : SumsTo P addends r)
    (hu : ∀ u ∈ Term.mergeAll [] (scaledTermsOfAll addends), ¬u.scalesSum) : SumsTo Q addends r :=
  have ⟨_, hs, hr⟩ := h
  ⟨_, .done (Term.scaled_eq_nil hu), Term.eq_kept_of_settles hs hu ▸ hr⟩

-- What becomes of a product whose factors are grouped, and its number does not go into a sum that
-- is one of several.
theorem MultipliesTo.cases_of_group (h : MultipliesTo S t r) (hg : Power.group t.factors = t.factors)
    (hs : ¬(Term.ofExpr t).scalesSum) :
    t.coefficient == 0 ∧ r = number 0 ∨
      ¬t.coefficient == 0 ∧ ((∃ s, t.factors = [s] ∧ s.isSum ∧ S [(1, (Term.ofExpr t).toExpr)] r) ∨
        (∀ s, t.factors = [s] → ¬s.isSum) ∧ r = (Term.ofExpr t).toExpr) := by
  have hspread {u : Term α} (hu : Spreads S ⟨t.coefficient, Power.group t.factors⟩ u) :
      u = Term.ofExpr t := by
    rw [hg] at hu
    exact eq_of_spreads hu hs
  cases h with
  | zero hz => exact .inl ⟨hz, rfl⟩
  | sum hne hu hf hsum hr =>
    obtain rfl := hspread hu
    exact .inr ⟨hne, .inl ⟨_, hf, hsum, hr⟩⟩
  | term hne hu hf =>
    obtain rfl := hspread hu
    exact .inr ⟨hne, .inr ⟨hf, rfl⟩⟩

-- What sums do with terms of the kind.
theorem SumsTo.sumsUp (h : SumsTo Q addends r)
    (hterms : ∀ u ∈ scaledTermsOfAll addends, u.Has k) :
    (∀ u ∈ Term.mergeAll [] (scaledTermsOfAll addends), ¬u.scalesSum) ∧ r.SumsUp k := by
  obtain ⟨terms, hsettles, rfl⟩ := h
  have hall : ∀ u ∈ Term.mergeAll [] (scaledTermsOfAll addends), u.Has k := by
    rw [Term.mergeAll_eq]
    exact forall_addAll (fun _ _ _ => .join) nofun hterms
  have hunscaled := fun u hu => (hall u hu).not_scalesSum
  obtain rfl := Term.eq_kept_of_settles hsettles hunscaled
  refine ⟨hunscaled, _, fun u hu => ?_, Term.distinct_kept ?_, rfl⟩
  · have ⟨hmem, hne, _⟩ := Term.mem_kept.mp hu
    exact ⟨hall u hmem, hne⟩
  · rw [Term.mergeAll_eq]
    exact distinct_addAll Term.stable_merging .nil

end Expr

theorem Power.ofExpr_of_isSum {s : Expr α} (hs : s.isSum) : ofExpr s = ⟨s, 1⟩ := by
  obtain ⟨op, a, b, rfl, rfl | rfl⟩ := Expr.exists_of_isSum hs <;> rfl

variable [Scalar.Regular α]

theorem Term.Has.ofExpr_toExpr {u : Term α} (h : u.Has k) (hne : ¬u.coefficient == 0) :
    ofExpr u.toExpr = u :=
  Term.ofExpr_toExpr hne fun f hf => (k.atoms h.product f hf).1

theorem Expr.hasTerms_toExpr {u : Term α} (hu : u.Has k) (hne : ¬u.coefficient == 0) :
    u.toExpr.HasTerms k :=
  hasTerms_of_has (by rwa [hu.ofExpr_toExpr hne])

variable [NumberText α]

-- A factor that is not taken for a power is left alone.
theorem Power.group_singleton {f : Expr α} (hf : ofExpr f = ⟨f, 1⟩) : group [f] = [f] := by
  have hmerged : mergeAll [] [f] = [⟨f, 1⟩] := congrArg (fun p => [p]) hf
  have hnonzero : nonzero [(⟨f, 1⟩ : Power α)] = [⟨f, 1⟩] := by
    simp [nonzero, not_one_beq_zero]
  have hwritten : (⟨f, 1⟩ : Power α).toExpr = f := if_pos one_beq_one
  rw [group_eq, hmerged, hnonzero, List.map_singleton, hwritten]
  exact SortKey.sort_eq_self (.singleton f)

namespace Expr

variable {t r s : Expr α} {S : List (α × Expr α) → Expr α → Prop} {Q : Expr α → Expr α → Prop}
  {addends : List (α × Expr α)}

-- Sums are written from their first term on.
@[elab_as_elim]
theorem SumsUp.induct {motive : Expr α → Prop} (h : t.SumsUp k) (zero : motive (number 0))
    (term : ∀ u : Term α, u.Has k → ¬u.coefficient == 0 → motive u.toExpr)
    (sum : ∀ op a (u : Term α), op = .add ∨ op = .sub → motive a → u.Has k →
      ¬u.coefficient == 0 → motive (binary op a u.toExpr)) : motive t := by
  obtain ⟨terms, hterms, _, rfl⟩ := h
  unfold Term.sumOf
  have hperm := SortKey.perm_sort Term.sortKey terms
  replace hterms : ∀ u ∈ SortKey.sort Term.sortKey terms, u.Has k ∧ ¬u.coefficient == 0 :=
    fun u hu => hterms u (hperm.mem_iff.mp hu)
  cases hs : SortKey.sort Term.sortKey terms with
  | nil => exact zero
  | cons v vs =>
    rw [hs] at hterms
    clear hs hperm
    dsimp only
    induction vs using List.reverseRecOn with
    | nil =>
      have ⟨hv, hne⟩ := hterms v List.mem_cons_self
      exact term v hv hne
    | append_singleton vs w ih =>
      rw [← List.cons_append] at hterms
      have ⟨hvs, hw⟩ := List.forall_mem_append.mp hterms
      have ⟨hw, hne⟩ := hw w (List.mem_singleton_self w)
      rw [List.foldl_concat]
      unfold Term.sumOf.append
      split
      case isTrue hlt =>
        exact sum .sub _ ⟨-w.coefficient, w.factors⟩ (.inr rfl) (ih hvs) hw.neg
          (not_neg_beq_zero hlt)
      case isFalse => exact sum .add _ w (.inl rfl) (ih hvs) hw hne

theorem SumsUp.hasTerms (h : t.SumsUp k) : t.HasTerms k := by
  refine h.induct ?zero ?term ?sum
  case zero => exact hasTerms_of_has has_zero
  case term => exact fun u hu hne => hasTerms_toExpr hu hne
  case sum  => exact fun op a u ho ha hu hne => ha.sum ho (hasTerms_toExpr hu hne)

-- What is not a sum is a single term.
theorem SumsUp.has (h : t.SumsUp k) (ht : ¬t.isSum) : (Term.ofExpr t).Has k := by
  refine h.induct (motive := fun t => ¬t.isSum → (Term.ofExpr t).Has k) ?zero ?term ?sum ht
  case zero => exact fun _ => has_zero
  case term => exact fun u hu hne _ => by rwa [hu.ofExpr_toExpr hne]
  case sum  =>
    intro op a u ho _ _ _ ht
    rcases ho with rfl | rfl <;> exact absurd rfl ht

omit [NumberText α] in
-- A number in front of such a sum leaves it one.
theorem HasTerms.toExpr (h : s.HasTerms k) (hf : t.factors = [s]) (hs : s.isSum)
    (hc : k.Number t.coefficient) (hne : ¬t.coefficient == 0) :
    (Term.ofExpr t).toExpr.HasTerms k := by
  have hu : Term.ofExpr (Term.ofExpr t).toExpr = Term.ofExpr t :=
    Term.ofExpr_toExpr hne fun _ hmem => isAtom_of_mem_factors hmem
  have hcoefficient : (Term.ofExpr t).toExpr.coefficient = t.coefficient :=
    congrArg Term.coefficient hu
  refine h.of_factors ((congrArg Term.factors hu).trans hf) hs ?_
  rwa [hcoefficient]

omit [Scalar.Regular α] in
-- What products do with terms of the kind.
theorem MultipliesTo.eq_of_product (h : MultipliesTo S t r) (hf : k.Product (Power.group t.factors)) :
    t.coefficient == 0 ∧ r = number 0 ∨
      ¬t.coefficient == 0 ∧ r = (Term.mk t.coefficient (Power.group t.factors)).toExpr := by
  have hatoms := k.atoms hf
  have hscales : ¬(Term.mk t.coefficient (Power.group t.factors)).scalesSum :=
    Term.not_scalesSum_of_product hf
  cases h with
  | zero hz => exact .inl ⟨hz, rfl⟩
  | @sum _ s _ _ hspread hf' hs =>
    obtain rfl := eq_of_spreads hspread hscales
    have hmem : s ∈ Power.group t.factors :=
      (congrArg (s ∈ ·) hf').mpr (List.mem_singleton_self s)
    exact absurd hs (hatoms s hmem).2
  | term hne hspread =>
    obtain rfl := eq_of_spreads hspread hscales
    exact .inr ⟨hne, rfl⟩

-- What products do with terms of the kind, or with a sum of such terms.
theorem MultipliesTo.sumsUp (h : MultipliesTo S t r)
    (hS : ∀ u : Term α, u.toExpr.HasTerms k → S [(1, u.toExpr)] r → r.SumsUp k)
    (hc : k.Number t.coefficient)
    (hf : k.Product (Power.group t.factors) ∨ ∃ s, t.factors = [s] ∧ s.isSum ∧ s.HasTerms k) :
    r.SumsUp k := by
  cases hf with
  | inl hf =>
    obtain ⟨_, rfl⟩ | ⟨hne, rfl⟩ := h.eq_of_product hf
    · exact sumsUp_zero
    · exact sumsUp_toExpr ⟨hc, hf⟩ hne
  | inr hf =>
    have ⟨s, hf, hs, hsum⟩ := hf
    have hgroup : Power.group t.factors = t.factors := by
      rw [hf, Power.group_singleton (Power.ofExpr_of_isSum hs)]
    have hscales : ¬(Term.ofExpr t).scalesSum := by
      simp [Term.scalesSum, Term.ofExpr, hf]
    obtain ⟨_, rfl⟩ | ⟨hne, ⟨s', hf', _, hr⟩ | ⟨hsingle, _⟩⟩ := h.cases_of_group hgroup hscales
    · exact sumsUp_zero
    · exact hS _ (hsum.toExpr hf hs hc hne) hr
    · exact absurd hs (hsingle s hf)

end Expr

end InfixAlgebra
