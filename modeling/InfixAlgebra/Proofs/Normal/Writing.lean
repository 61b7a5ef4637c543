import InfixAlgebra.Proofs.Normal.Basic

namespace InfixAlgebra

open Scalar.Regular

variable {α : Type} [Scalar α] [NumberText α]

structure Term.Settled (u : Term α) : Prop where
  reduced : u.Reduced
  factors : ∀ f ∈ u.factors, f.isAtom ∧ f.Normal

variable [Scalar.Regular α]

namespace Expr

variable {u : Term α} {x : α} {f : Expr α} {fs : List (Expr α)}

theorem reducedProduct_toExpr (h : u.Settled) : u.toExpr.ReducedProduct := by
  have hu := Term.ofExpr_toExpr h.reduced.nonzero fun f hf => (h.factors f hf).1
  exact ⟨hu.symm ▸ h.reduced, congrArg Term.toExpr hu⟩

-- The products that a longer one is nested from are in normal form as well. Without a number there
-- may be sums among the factors.
theorem normal_foldl_mul (hfs : ∀ g ∈ f :: fs, g.isAtom ∧ g.Normal) (hg : Grouped (f :: fs)) :
    (fs.foldl .mul f).Normal := by
  induction fs using List.reverseRecOn with
  | nil => exact (hfs f List.mem_cons_self).2
  | append_singleton gs g ih =>
    have hsettled : (Term.mk 1 (f :: (gs ++ [g]))).Settled := by
      refine ⟨⟨not_one_beq_zero, fun _ _ _ => ⟨one_beq_one, ?_⟩, hg⟩, hfs⟩
      simp
    have hr := reducedProduct_toExpr hsettled
    rw [Term.toExpr_one, List.foldl_concat] at hr
    rw [List.foldl_concat]
    rw [← List.cons_append] at hfs hg
    have ⟨hgs, hlast⟩ := List.forall_mem_append.mp hfs
    exact .mul (ih hgs hg.of_append) (hlast g (List.mem_singleton_self g)).2 hr

theorem normal_foldl_mul_number (h₀ : ¬x == 0) (h₁ : ¬x == 1) (h₂ : ¬x == -1)
    (hfs : ∀ g ∈ f :: fs, g.isAtom ∧ g.Normal) (hg : Grouped (f :: fs))
    (hsum : ∀ g ∈ f :: fs, ¬g.isSum) : (fs.foldl .mul (mul (.number x) f)).Normal := by
  have hr : (fs.foldl .mul (mul (.number x) f)).ReducedProduct := by
    rw [← Term.toExpr_number h₀ h₁ h₂]
    exact reducedProduct_toExpr ⟨⟨h₀, fun g hg hs => absurd hs (hsum g hg), hg⟩, hfs⟩
  induction fs using List.reverseRecOn with
  | nil => exact .mul (.number x) (hfs f List.mem_cons_self).2 hr
  | append_singleton gs g ih =>
    rw [List.foldl_concat] at hr ⊢
    rw [← List.cons_append] at hfs hsum hg
    have ⟨hgs, hlast⟩ := List.forall_mem_append.mp hfs
    have hsums := (List.forall_mem_append.mp hsum).1
    have hprefix : (gs.foldl .mul (mul (.number x) f)).ReducedProduct := by
      rw [← Term.toExpr_number h₀ h₁ h₂]
      exact reducedProduct_toExpr
        ⟨⟨h₀, fun g hg hs => absurd hs (hsums g hg), hg.of_append⟩, hgs⟩
    exact .mul (ih hgs hg.of_append hsums hprefix) (hlast g (List.mem_singleton_self g)).2 hr

theorem normal_toExpr (h : u.Settled) : u.toExpr.Normal := by
  have hr := reducedProduct_toExpr h
  have hw := Term.written_toExpr h.reduced.nonzero
  generalize u.toExpr = t at hr hw
  cases hw with
  | alone x => exact .number x
  | one f fs => exact normal_foldl_mul h.factors h.reduced.grouped
  | neg_one f fs => exact .neg (normal_foldl_mul h.factors h.reduced.grouped) hr
  | number f fs h₁ h₂ =>
    have hsum (g : Expr α) (hg : g ∈ f :: fs) : ¬g.isSum :=
      fun hs => h₁ (h.reduced.sums g hg hs).1
    exact normal_foldl_mul_number h.reduced.nonzero h₁ h₂ h.factors h.reduced.grouped hsum

end Expr

namespace Term

variable {t u : Term α} {ts us : List (Term α)} {left : Expr α}

theorem Settled.neg (h : u.Settled) (hlt : Scalar.lt u.coefficient 0) :
    Settled ⟨-u.coefficient, u.factors⟩ where
  reduced := {
    nonzero := not_neg_beq_zero hlt
    sums    := fun f hf hs => by
      have hone := (h.reduced.sums f hf hs).1
      rw [eq_one hone] at hlt
      exact absurd hlt not_one_lt_zero
    grouped := h.reduced.grouped }
  factors := h.factors

-- What is written is a single term again.
theorem scaledTerms_toExpr (h : u.Settled) (scale : α) :
    u.toExpr.scaledTerms scale = [⟨scale * u.coefficient, u.factors⟩] := by
  have hatoms : ∀ f ∈ u.factors, f.isAtom := fun f hf => (h.factors f hf).1
  have hfactors := factors_toExpr h.reduced.nonzero hatoms
  rw [Expr.scaledTerms_of_factors_ne fun s hs => h.reduced.not_isSum (hfactors.symm.trans hs),
    hfactors, coefficient_toExpr h.reduced.nonzero hatoms]

theorem exists_of_append (left : Expr α) (h : u.Settled) :
    ∃ (op : Operator) (v : Term α), (op = .add ∨ op = .sub) ∧ v.Settled ∧
      sumOf.append left u = .binary op left v.toExpr ∧
      (sumOf.append left u).scaledTerms 1 = left.scaledTerms 1 ++ [u] := by
  unfold sumOf.append
  split
  case isTrue hlt =>
    refine ⟨.sub, _, .inr rfl, h.neg hlt, rfl, ?_⟩
    rw [Expr.scaledTerms, scaledTerms_toExpr (h.neg hlt), neg_one_mul_neg]
  case isFalse =>
    refine ⟨.add, _, .inl rfl, h, rfl, ?_⟩
    rw [Expr.scaledTerms, scaledTerms_toExpr h, one_mul_eq]

-- Sums are read as they are written.
theorem scaledTerms_foldl_append (h : ∀ u ∈ t :: ts, u.Settled) :
    (ts.foldl sumOf.append t.toExpr).scaledTerms 1 = t :: ts := by
  induction ts using List.reverseRecOn with
  | nil => rw [List.foldl_nil, scaledTerms_toExpr (h t List.mem_cons_self), one_mul_eq]
  | append_singleton us u ih =>
    rw [← List.cons_append] at h ⊢
    have ⟨hus, hu⟩ := List.forall_mem_append.mp h
    have ⟨_, _, _, _, _, hterms⟩ :=
      exists_of_append (us.foldl sumOf.append t.toExpr) (hu u (List.mem_singleton_self u))
    rw [List.foldl_concat, hterms, ih hus]

omit [Scalar.Regular α] in
theorem sumOf_of_ordered (h : SortKey.Ordered sortKey (t :: ts)) :
    sumOf (t :: ts) = ts.foldl sumOf.append t.toExpr := by
  rw [sumOf, SortKey.sort_eq_self h]

theorem normal_foldl_append (h : ∀ u ∈ t :: ts, u.Settled) (hd : merging.Distinct (t :: ts))
    (ho : SortKey.Ordered sortKey (t :: ts)) : (ts.foldl sumOf.append t.toExpr).Normal := by
  induction ts using List.reverseRecOn with
  | nil => exact Expr.normal_toExpr (h t List.mem_cons_self)
  | append_singleton us u ih =>
    have hterms := scaledTerms_foldl_append h
    have hwritten := sumOf_of_ordered ho
    rw [List.foldl_concat] at hterms hwritten ⊢
    have hreduced : (sumOf.append (us.foldl sumOf.append t.toExpr) u).ReducedSum :=
      { nonzero  := hterms ▸ fun u hu => (h u hu).reduced.nonzero
        unscaled := hterms ▸ fun u hu => (h u hu).reduced.not_scalesSum
        distinct := hterms ▸ hd
        written  := hterms ▸ hwritten }
    rw [← List.cons_append] at h hd ho
    have ⟨hus, hu⟩ := List.forall_mem_append.mp h
    have ⟨op, v, hop, hv, hsum, _⟩ :=
      exists_of_append (us.foldl sumOf.append t.toExpr) (hu u (List.mem_singleton_self u))
    rw [hsum] at hreduced ⊢
    have hleft := ih hus (List.pairwise_append.mp hd).1 ho.left_of_append
    exact .sum hop hleft (Expr.normal_toExpr hv) hreduced

omit [NumberText α] in
theorem distinct_of_perm (h : ts.Perm us) (hd : merging.Distinct ts) : merging.Distinct us :=
  (h.pairwise_iff fun hne h => hne ((Expr.beq_list_comm beq_comm ..).trans h)).mp hd

-- Terms with different factors make up a sum in normal form.
theorem normal_sumOf (h : ∀ u ∈ ts, u.Settled) (hd : merging.Distinct ts) : (sumOf ts).Normal := by
  have hperm := SortKey.perm_sort sortKey ts
  have ho := SortKey.ordered_sort sortKey ts
  have hd' := distinct_of_perm hperm.symm hd
  have h' : ∀ u ∈ SortKey.sort sortKey ts, u.Settled := fun u hu => h u (hperm.mem_iff.mp hu)
  unfold sumOf
  cases hs : SortKey.sort sortKey ts with
  | nil => exact .number 0
  | cons u us =>
    rw [hs] at ho hd' h'
    exact normal_foldl_append h' hd' ho

end Term

end InfixAlgebra
