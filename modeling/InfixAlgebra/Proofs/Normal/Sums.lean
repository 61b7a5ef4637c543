import InfixAlgebra.Proofs.Normal.Weight
import InfixAlgebra.Proofs.Normal.Writing

namespace InfixAlgebra

open Merging Scalar.Regular

variable {α : Type} [Scalar α] [NumberText α]

structure Term.Composed (u : Term α) : Prop where
  grouped : Grouped u.factors
  factors : ∀ f ∈ u.factors, f.isAtom ∧ f.Normal
  single  : ∀ s, u.factors = [s] → ¬s.isSum

namespace Term

variable {u : Term α}

theorem Composed.settled (h : u.Composed) (hne : ¬u.coefficient == 0) (hs : ¬u.scalesSum) :
    u.Settled := by
  refine ⟨⟨hne, fun f hf hsum => ?_, h.grouped⟩, h.factors⟩
  have hlength : 1 < u.factors.length := by
    cases hfs : u.factors with
    | nil => rw [hfs] at hf; cases hf
    | cons g gs =>
      cases gs with
      | cons => exact Nat.succ_lt_succ (Nat.succ_pos _)
      | nil =>
        rw [hfs, List.mem_singleton] at hf
        exact absurd (hf ▸ hsum) (h.single g hfs)
  have hany : u.factors.any Expr.isSum := List.any_eq_true.mpr ⟨f, hf, hsum⟩
  simp only [scalesSum, hlength, hany, decide_true, Bool.and_true, Bool.not_eq_true',
    Bool.not_eq_false] at hs
  exact ⟨hs, hlength⟩

end Term

namespace Expr

variable {t s : Expr α} {scale : α}

omit [Scalar α] [NumberText α] in
theorem scaledSum?_of_factors (hf : t.factors = [s]) (hs : s.isSum) (ht : ¬t.isSum) :
    t.scaledSum? = some s := by
  cases t with
  | neg a => rw [scaledSum?, show a.factors = [s] from hf]; exact if_pos hs
  | binary op a b =>
    cases op with
    | mul => rw [scaledSum?, show a.factors ++ b.factors = [s] from hf]; exact if_pos hs
    | _   => exact absurd (List.singleton_inj.mp hf ▸ hs) ht
  | number => cases hf
  | _      => exact absurd (List.singleton_inj.mp hf ▸ hs) ht

theorem Normal.grouped (h : t.Normal) : Grouped t.factors := by
  have hone (t : Expr α) : Grouped [t] := ⟨List.pairwise_singleton _ _, .singleton _⟩
  cases h with
  | number x => exact ⟨.nil, .nil⟩
  | neg _ hr => exact hr.reduced.grouped
  | mul _ _ hr => exact hr.reduced.grouped
  | _ => exact hone _

theorem Normal.composed (h : t.Normal) : ∀ u ∈ t.scaledTerms scale, u.Composed := by
  induction scale, t using scaledTerms_induct with
  | add scale a b iha ihb =>
    rw [scaledTerms, List.forall_mem_append]
    cases h with
    | add ha hb _ => exact ⟨iha ha, ihb hb⟩
  | sub scale a b iha ihb =>
    rw [scaledTerms, List.forall_mem_append]
    cases h with
    | sub ha hb _ => exact ⟨iha ha, ihb hb⟩
  | scaled scale t s hs ih =>
    rw [scaledTerms_of_some hs]
    exact ih (h.of_mem_factors ((factors_of_scaledSum? hs).1 ▸ List.mem_singleton_self s))
  | term scale t hs ht =>
    rw [scaledTerms_of_none hs ht, List.forall_mem_singleton]
    refine ⟨h.grouped, fun f hf => ⟨isAtom_of_mem_factors hf, h.of_mem_factors hf⟩, ?_⟩
    intro s hf hsum
    rw [scaledSum?_of_factors hf hsum ht] at hs
    cases hs

-- The terms of an expression that is a sum, a number apart.

theorem composed_of_factors (hf : t.factors = [s]) (hs : s.isSum) (hn : s.Normal) :
    ∀ u ∈ t.scaledTerms scale, u.Composed := by
  by_cases ht : t.isSum
  case pos =>
    rw [factors_of_isSum ht] at hf
    rw [List.singleton_inj.mp hf]
    exact hn.composed
  case neg =>
    rw [scaledTerms_of_some (scaledSum?_of_factors hf hs ht)]
    exact hn.composed

omit [NumberText α] in
theorem total_scaledTerms_of_isSum (hs : s.isSum) :
    total (Term.weight 1) (s.scaledTerms scale) ≤ s.weight := by
  have ⟨op, a, b, heq, ho⟩ := exists_of_isSum hs
  have ha := @total_scaledTerms_le α _ 1 (by decide) scale a
  rw [heq, weight_sum ho]
  rcases ho with rfl | rfl
  case inl =>
    have hb := @total_scaledTerms_le α _ 1 (by decide) scale b
    rw [scaledTerms, total_append]
    omega
  case inr =>
    have hb := @total_scaledTerms_le α _ 1 (by decide) (-scale) b
    rw [scaledTerms, total_append]
    omega

omit [NumberText α] in
theorem total_scaledTerms_of_factors (hf : t.factors = [s]) (hs : s.isSum) :
    total (Term.weight 1) (t.scaledTerms scale) ≤ t.weight := by
  by_cases ht : t.isSum
  case pos => exact total_scaledTerms_of_isSum ht
  case neg =>
    rw [scaledTerms_of_some (scaledSum?_of_factors hf hs ht), weight_eq_total t, hf]
    exact total_scaledTerms_of_isSum hs

-- No heavier, and in normal form if no lighter.

def LightensProduct (t r : Expr α) : Prop :=
  r.weight ≤ t.weight ∧ ((∀ f ∈ t.factors, f.Normal) → t.weight ≤ r.weight → r.Normal)

-- Of a sum alone, the number that may stand next to it aside. Where nothing of it is left to be a
-- single factor, it has become lighter.
def LightensSum (addends : List (α × Expr α)) (r : Expr α) : Prop :=
  ∀ t s, addends = [(1, t)] → t.factors = [s] → s.isSum →
    r.factorWeight ≤ t.weight ∧
      ((∀ u ∈ t.scaledTerms 1, u.Composed) → t.weight ≤ r.weight → r.Normal)

end Expr

namespace Term

variable {u : Term α} {terms result us : List (Term α)} {rs : List (Expr α)} {own : Nat}

omit [NumberText α] in
theorem total_flatMap_le (h : own ≤ 2) (rs : List (Expr α)) :
    total (weight own) (rs.flatMap (Expr.scaledTerms 1)) ≤
      total (fun r : Expr α => r.weight + own) rs := by
  induction rs with
  | nil => exact Nat.le_refl _
  | cons r rs ih =>
    rw [List.flatMap_cons, total_append, total_cons]
    exact Nat.add_le_add (Expr.total_scaledTerms_le h 1 r) ih

-- Products of terms are no heavier than the terms.
theorem total_products_le (own : Nat)
    (h : List.Forall₂ (fun u r => Expr.LightensProduct u.toExpr r) us rs) :
    total (fun r : Expr α => r.weight + own) rs ≤ total (weight own) us := by
  induction h with
  | nil => exact Nat.le_refl _
  | @cons u r us rs hr _ ih =>
    rw [total_cons, total_cons]
    exact Nat.add_le_add (Nat.add_le_add_right (hr.1.trans (weight_toExpr_le u)) own) ih

omit [NumberText α] in
theorem total_scaled_add_kept_le (w : Term α → Nat) (terms : List (Term α)) :
    total w (scaled terms) + total w (kept terms) ≤ total w terms := by
  rw [← total_append, scaled, kept, total_perm (List.filter_append_perm ..)]
  exact total_filter_le ..

omit [NumberText α] in
-- Where the product of a term weighs no more than the term, settling adds nothing.
theorem total_le_of_settles {P : Expr α → Expr α → Prop} {w : Term α → Nat}
    (hw : merging.Lightens w) (hP : ∀ u r, P u.toExpr r → total w (r.scaledTerms 1) ≤ w u)
    (h : Settles P terms result) : total w result ≤ total w terms := by
  have hproducts {us : List (Term α)} {rs : List (Expr α)}
      (h : List.Forall₂ (fun u r => P u.toExpr r) us rs) :
      total w (rs.flatMap (Expr.scaledTerms 1)) ≤ total w us := by
    induction h with
    | nil => exact Nat.le_refl _
    | @cons u r us rs hr _ ih =>
      rw [List.flatMap_cons, total_append, total_cons]
      exact Nat.add_le_add (hP u r hr) ih
  induction h with
  | @done terms _ =>
    have hparts := total_scaled_add_kept_le w terms
    omega
  | @round terms products result _ hp _ ih =>
    have hparts := total_scaled_add_kept_le w terms
    have hmerge := @total_addAll_le _ _ _ (kept terms)
      (products.reverse.flatMap (Expr.scaledTerms 1)) hw
    have hle := hproducts hp
    rw [← total_perm (products.reverse_perm.flatMap_right _)] at hle
    rw [mergeAll_eq] at ih
    omega

theorem total_settles_le (h₀ : 0 < own) (h₂ : own ≤ 2)
    (h : Settles Expr.LightensProduct terms result) :
    total (weight own) result ≤ total (weight own) terms := by
  refine total_le_of_settles (lightens_weight h₀) (fun u r hr => ?_) h
  have hterms := Expr.total_scaledTerms_le h₂ 1 r
  exact hterms.trans (Nat.add_le_add_right (hr.1.trans (weight_toExpr_le u)) own)

omit [NumberText α] in
theorem mem_scaled : u ∈ scaled terms ↔ u ∈ terms ∧ ¬u.coefficient == 0 ∧ u.scalesSum := by
  simp [scaled, nonzero, and_comm]

omit [NumberText α] in
theorem mem_kept : u ∈ kept terms ↔ u ∈ terms ∧ ¬u.coefficient == 0 ∧ ¬u.scalesSum := by
  simp [kept, nonzero, and_comm]

omit [NumberText α] in
theorem distinct_kept (h : merging.Distinct terms) : merging.Distinct (kept terms) :=
  h.sublist (List.filter_sublist.trans List.filter_sublist)

variable [Scalar.Regular α]

theorem normal_of_products (hus : ∀ u ∈ us, u.Composed ∧ ¬u.coefficient == 0)
    (h : List.Forall₂ (fun u r => Expr.LightensProduct u.toExpr r) us rs)
    (hw : total (weight 2) us ≤ total (fun r : Expr α => r.weight + 2) rs) :
    ∀ r ∈ rs, r.Normal := by
  induction h with
  | nil => nofun
  | @cons u r us rs hr hrs ih =>
    have ⟨⟨hu, hne⟩, hus⟩ := List.forall_mem_cons.mp hus
    have hrest := total_products_le 2 hrs
    have hhead := weight_toExpr_le u
    have hle := hr.1
    simp only [total_cons, weight] at hw hrest
    have hfactors : u.toExpr.factors = u.factors :=
      factors_toExpr hne fun f hf => (hu.factors f hf).1
    refine List.forall_mem_cons.mpr ⟨hr.2 ?_ (by omega), ih hus ?_⟩
    · rw [hfactors]
      exact fun f hf => (hu.factors f hf).2
    · omega

-- Terms are settled where settling them has not made them lighter.
theorem settled_of_settles (h : Settles Expr.LightensProduct terms result)
    (hterms : ∀ u ∈ terms, u.Composed) (hd : merging.Distinct terms)
    (hw : total (weight 2) terms ≤ total (weight 2) result) :
    (∀ u ∈ result, u.Settled) ∧ merging.Distinct result := by
  induction h with
  | @done terms _ =>
    refine ⟨fun u hu => ?_, distinct_kept hd⟩
    have ⟨hmem, hne, hs⟩ := mem_kept.mp hu
    exact (hterms u hmem).settled hne hs
  | @round terms products result _ hp hs ih =>
    -- Nothing may be lost where the products are written, nor where they are merged.
    have hparts := total_scaled_add_kept_le (weight 2) terms
    have hspread := @total_flatMap_le α _ 2 (Nat.le_refl 2) products.reverse
    rw [total_perm products.reverse_perm] at hspread
    have hmerge := @total_addAll_le _ _ _ (kept terms)
      (products.reverse.flatMap (Expr.scaledTerms 1)) (lightens_weight (α := α) Nat.two_pos)
    have hproducts := total_products_le 2 hp
    have hsettle := total_settles_le Nat.two_pos (Nat.le_refl 2) hs
    rw [mergeAll_eq] at ih hsettle
    have hnormal : ∀ r ∈ products, r.Normal := by
      refine normal_of_products (fun u hu => ?_) hp (by omega)
      have ⟨hmem, hne, _⟩ := mem_scaled.mp hu
      exact ⟨hterms u hmem, hne⟩
    have hdistinct := distinct_of_total_addAll (lightens_weight (α := α) Nat.two_pos)
      (distinct_kept hd)
      (by omega : total (weight 2) (kept terms) +
        total (weight 2) (products.reverse.flatMap (Expr.scaledTerms 1)) ≤ _)
    rw [addAll_eq_append hdistinct] at ih hsettle
    refine ih (List.forall_mem_append.mpr ⟨fun u hu => hterms u (mem_kept.mp hu).1, ?_⟩)
      hdistinct (by rw [total_append]; omega)
    intro u hu
    have ⟨r, hr, hu⟩ := List.mem_flatMap.mp hu
    exact (hnormal r (List.mem_reverse.mp hr)).composed u hu

omit [NumberText α] [Scalar.Regular α] in
theorem weight_append_le (left : Expr α) (u : Term α) :
    (sumOf.append left u).isSum ∧ (sumOf.append left u).weight ≤ left.weight + weight 2 u := by
  have hneg : (mk (-u.coefficient) u.factors).toExpr.weight ≤ total Expr.weight u.factors :=
    weight_toExpr_le _
  have hpos := weight_toExpr_le u
  unfold sumOf.append
  split
  case isTrue =>
    rw [Expr.weight_sum (.inr rfl), weight]
    exact ⟨rfl, by omega⟩
  case isFalse =>
    rw [Expr.weight_sum (.inl rfl), weight]
    exact ⟨rfl, by omega⟩

omit [NumberText α] [Scalar.Regular α] in
theorem weight_foldl_append_le {left : Expr α} (hl : left.isSum) (us : List (Term α)) :
    (us.foldl sumOf.append left).isSum ∧
      (us.foldl sumOf.append left).weight ≤ left.weight + total (weight 2) us := by
  induction us generalizing left with
  | nil => exact ⟨hl, Nat.le_refl _⟩
  | cons u us ih =>
    have ⟨hsum, hle⟩ := weight_append_le left u
    have ⟨hsum', hle'⟩ := ih hsum
    rw [total_cons, List.foldl_cons]
    exact ⟨hsum', by omega⟩

omit [Scalar.Regular α] in
-- Only what has several terms is a sum.
theorem sumOf_cases (terms : List (Term α)) :
    sumOf terms = .number 0 ∨ (∃ u, terms = [u] ∧ sumOf terms = u.toExpr) ∨
      (sumOf terms).isSum ∧ (sumOf terms).weight + 2 ≤ total (weight 2) terms := by
  have hperm := SortKey.perm_sort sortKey terms
  rw [← total_perm hperm]
  cases hsort : SortKey.sort sortKey terms with
  | nil => exact .inl (by rw [sumOf, hsort])
  | cons u us =>
    rw [hsort] at hperm
    cases us with
    | nil => exact .inr (.inl ⟨u, List.perm_singleton.mp hperm.symm, by rw [sumOf, hsort]; rfl⟩)
    | cons v vs =>
      have hu := weight_toExpr_le u
      obtain ⟨hsum, hv⟩ := weight_append_le u.toExpr v
      obtain ⟨hatom, hvs⟩ := weight_foldl_append_le hsum vs
      have hsumOf : sumOf terms = vs.foldl sumOf.append (sumOf.append u.toExpr v) := by
        rw [sumOf, hsort]
        rfl
      have hown : weight 2 u = total Expr.weight u.factors + 2 := rfl
      rw [hsumOf, total_cons, total_cons]
      exact .inr (.inr ⟨hatom, by omega⟩)

end Term

namespace Expr

variable {t r s : Expr α} {addends : List (α × Expr α)} {terms : List (Term α)}

omit [Scalar α] [NumberText α] in
theorem weight_of_factors (hf : t.factors = [s]) : t.weight = s.weight := by
  rw [weight_eq_total, hf]
  rfl

theorem total_summed_le {own : Nat} (h₀ : 0 < own) (h₂ : own ≤ 2)
    (h : Term.Settles LightensProduct (Term.merging.addAll [] (t.scaledTerms 1)) terms) :
    total (Term.weight own) terms ≤ total (Term.weight own) (t.scaledTerms 1) := by
  have hmerge := @total_addAll_le _ _ _ [] (t.scaledTerms 1) (Term.lightens_weight (α := α) h₀)
  rw [total_nil, Nat.zero_add] at hmerge
  exact (Term.total_settles_le h₀ h₂ h).trans hmerge

variable [Scalar.Regular α]

theorem normal_of_summed
    (h : Term.Settles LightensProduct (Term.merging.addAll [] (t.scaledTerms 1)) terms)
    (ht : ∀ u ∈ t.scaledTerms 1, u.Composed)
    (hw : total (Term.weight 2) (t.scaledTerms 1) ≤ total (Term.weight 2) terms) :
    (Term.sumOf terms).Normal := by
  have hsettle := Term.total_settles_le Nat.two_pos (Nat.le_refl 2) h
  have hd : Term.merging.Distinct ([] ++ t.scaledTerms 1) :=
    distinct_of_total_addAll (Term.lightens_weight Nat.two_pos) .nil
      ((Nat.zero_add _).trans_le (hw.trans hsettle))
  rw [addAll_eq_append hd] at h
  have ⟨hterms, hd'⟩ := Term.settled_of_settles h ht hd hw
  exact Term.normal_sumOf hterms hd'

theorem lightensSum_of_sumsTo (h : SumsTo LightensProduct addends r) : LightensSum addends r := by
  rintro t s rfl hf hs
  have ⟨terms, hsettles, hr⟩ := h
  have haddends : scaledTermsOfAll [(1, t)] = t.scaledTerms 1 := List.append_nil _
  rw [haddends, Term.mergeAll_eq] at hsettles
  have hone := total_summed_le Nat.one_pos Nat.one_lt_two.le hsettles
  have hone' := @total_scaledTerms_of_factors _ _ t s 1 hf hs
  have htwo := total_summed_le Nat.two_pos (Nat.le_refl 2) hsettles
  have htwo' := @total_scaledTerms_le α _ 2 (Nat.le_refl 2) 1 t
  rw [hr]
  rcases Term.sumOf_cases terms with hzero | ⟨u, hu, hsingle⟩ | ⟨hsum, hle⟩
  case inl =>
    have ht : 2 ≤ t.weight := weight_of_factors hf ▸ weight_of_isSum hs
    rw [hzero]
    exact ⟨Nat.le_of_succ_le ht, fun _ hw => absurd (ht.trans hw) (by decide : ¬2 ≤ 0)⟩
  case inr.inl =>
    -- A single term no longer has the weight of a sum.
    have hweight := Term.weight_toExpr_le u
    have hfactor := @factorWeight_le α u.toExpr
    rw [hu, total_cons, total_nil, Term.weight] at hone
    rw [hsingle]
    exact ⟨by omega, fun _ hw => by omega⟩
  case inr.inr =>
    rw [factorWeight_of_isAtom (isAtom_of_isSum hsum)]
    exact ⟨by omega, fun ht hw => normal_of_summed hsettles ht (by omega)⟩

end Expr

end InfixAlgebra
