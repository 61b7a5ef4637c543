import InfixAlgebra.Proofs.Normal.Products

namespace InfixAlgebra

open Merging Scalar.Regular

variable {α : Type}

-- What has a weight is not dropped if nothing is lost.
theorem Merging.filter_eq_self_of_total {β : Type} {w : β → Nat} {p : β → Bool} {xs : List β}
    (hpos : ∀ x ∈ xs, 0 < w x) (h : total w xs ≤ total w (xs.filter p)) : xs.filter p = xs := by
  induction xs with
  | nil => rfl
  | cons x xs ih =>
    have ⟨hx, hxs⟩ := List.forall_mem_cons.mp hpos
    have hle := @total_filter_le _ w p xs
    rw [List.filter_cons] at h ⊢
    split at h
    case isTrue hp =>
      simp only [total_cons] at h
      rw [if_pos hp, ih hxs (by omega)]
    case isFalse =>
      rw [total_cons] at h
      omega

variable [Scalar α] [NumberText α] [Scalar.Regular α]

namespace Power

variable {fs : List (Expr α)}

omit [NumberText α] [Scalar.Regular α] in
theorem weight_pos (p : Power α) : 0 < p.weight := by
  unfold weight
  split
  case isTrue h =>
    have hbase := Expr.weight_of_isBase (Bool.and_elim_right h)
    omega
  case isFalse => exact Nat.succ_pos _

-- As many factors are left, unless something was lost.
theorem length_group (h : total Expr.factorWeight fs ≤ total Expr.factorWeight (group fs)) :
    (group fs).length = fs.length := by
  have hpowers : mergeAll [] fs = fs.map ofExpr := by
    rw [mergeAll_eq, addAll_nil (distinct_of_total_group h)]
  have hperm : (group fs).Perm ((nonzero (fs.map ofExpr)).map toExpr) := by
    rw [group_eq, hpowers]
    exact SortKey.perm_sort ..
  have hkept : total Expr.factorWeight (group fs) ≤ total weight (nonzero (fs.map ofExpr)) := by
    rw [total_perm hperm, total, List.map_map]
    exact total_le_of_forall (v := Expr.factorWeight ∘ toExpr) fun p _ => factorWeight_toExpr_le p
  have hall : nonzero (fs.map ofExpr) = fs.map ofExpr :=
    filter_eq_self_of_total (fun p _ => weight_pos p)
      ((total_ofExpr_le fs).trans (h.trans hkept))
  rw [hperm.length_eq, hall, List.length_map, List.length_map]

end Power

namespace Expr

variable {t r : Expr α} {u u' : Term α}

theorem length_of_spreads (h : Spreads LightensSum u u')
    (hw : total factorWeight u.factors ≤ total factorWeight u'.factors) :
    u'.factors.length = u.factors.length := by
  cases h with
  | none => rfl
  | @into c before after s r _ _ hs hsum =>
    have hr := factorWeight_of_lightensSum hsum hs
    have hrs : total factorWeight (before ++ r :: after) ≤
        total factorWeight (before ++ s :: after) := by
      simp only [total_append, total_cons]
      omega
    refine (Power.length_group (hrs.trans hw)).trans ?_
    rw [List.length_append, List.length_append]
    rfl

theorem not_scalesSum_of_spreads {sum : List (α × Expr α) → Expr α → Prop}
    (h : Spreads sum u u') : ¬u'.scalesSum := by
  cases h with
  | none hn => exact hn
  | into    => simp [Term.scalesSum, one_beq_one]

-- A product that loses nothing remains a product of as many single factors.
theorem factors_of_spreads (h : Spreads LightensSum ⟨t.coefficient, Power.group t.factors⟩ u)
    (hw : t.weight ≤ total weight u.factors) :
    u.factors.length = t.factors.length ∧ ∀ f ∈ u.factors, f.isAtom := by
  have hgroup := Power.total_group_le t.factors
  have hspread : total factorWeight u.factors ≤ total factorWeight (Power.group t.factors) :=
    total_spreads_le h
  have hweight := total_weight_le u.factors
  rw [total_factorWeight_factors] at hgroup
  have hlength : (Power.group t.factors).length = t.factors.length := by
    refine Power.length_group ?_
    rw [total_factorWeight_factors]
    omega
  refine ⟨(length_of_spreads h ?_).trans hlength, isAtom_of_total_le ?_⟩
  · show total factorWeight (Power.group t.factors) ≤ _
    omega
  · omega

end Expr

namespace Term

variable {u : Term α} {r : Expr α} {terms us : List (Term α)} {rs : List (Expr α)}

def Atomic (u : Term α) : Prop :=
  ∀ f ∈ u.factors, f.isAtom

-- No coefficient stands next to a sum in a product that has just been built, unless the product
-- has become lighter.
theorem not_scalesSum_of_multipliesTo (hne : ¬u.coefficient == 0) (hu : u.Atomic)
    (hs : u.scalesSum) (h : Expr.MultipliesTo Expr.LightensSum u.toExpr r)
    (hw : total Expr.weight u.factors ≤ r.weight) : ∀ v ∈ r.scaledTerms 1, ¬v.scalesSum := by
  have hread : ofExpr u.toExpr = u := ofExpr_toExpr hne hu
  have hcoefficient : u.toExpr.coefficient = u.coefficient := congrArg coefficient hread
  have hfactors : u.toExpr.factors = u.factors := congrArg factors hread
  have hweight : u.toExpr.weight = total Expr.weight u.factors := by
    rw [Expr.weight_eq_total, hfactors]
  have hne' : ¬u.toExpr.coefficient == 0 := hcoefficient ▸ hne
  have hmany : 1 < u.toExpr.factors.length := by
    rw [hfactors]
    simp only [scalesSum, Bool.and_eq_true, decide_eq_true_eq] at hs
    exact hs.1.2
  cases h with
  | zero hz => exact absurd hz hne'
  | @sum u' s _ _ hspread hf hsum hr =>
    -- A single factor would have to be left of several ones.
    have hfactors' : u'.toExpr.factors = [s] :=
      factors_toExpr_of_isSum (Expr.nonzero_of_spreads hspread hne') hf hsum
    have hle := (hr _ s rfl hfactors' hsum).1
    have hr' := @Expr.weight_le_factorWeight α r
    have hu' := weight_toExpr_le u'
    have hlength := (Expr.factors_of_spreads hspread (by omega)).1
    rw [hf, List.length_singleton] at hlength
    omega
  | @term u' _ hspread hf =>
    have hu' := weight_toExpr_le u'
    have hatoms := (Expr.factors_of_spreads hspread (by omega)).2
    have hread' := ofExpr_toExpr (Expr.nonzero_of_spreads hspread hne') hatoms
    have hfactors' : u'.toExpr.factors = u'.factors := congrArg factors hread'
    have hterm : u'.toExpr.scaledTerms 1 = [u'] := by
      rw [Expr.scaledTerms_of_factors_ne fun s hs => hf s (hfactors' ▸ hs), one_mul_eq]
      exact congrArg ([·]) hread'
    rw [hterm, List.forall_mem_singleton]
    exact Expr.not_scalesSum_of_spreads hspread

-- What a round makes of the terms is lighter, or it was the last one.

theorem not_scalesSum_of_products (hus : ∀ u ∈ us, u.Atomic ∧ ¬u.coefficient == 0 ∧ u.scalesSum)
    (h : List.Forall₂ (fun u r => Expr.MultipliesTo Expr.LightensSum u.toExpr r) us rs)
    (hw : total (weight 1) us ≤ total (fun r : Expr α => r.weight + 1) rs) :
    ∀ r ∈ rs, ∀ v ∈ r.scaledTerms 1, ¬v.scalesSum := by
  induction h with
  | nil => nofun
  | @cons u r us rs hr hrs ih =>
    have ⟨⟨hu, hne, hs⟩, hus⟩ := List.forall_mem_cons.mp hus
    have hrest := total_products_le 1 (hrs.imp fun _ _ => Expr.lightensProduct_of_multipliesTo)
    have hhead := weight_toExpr_le u
    have hle := (Expr.lightensProduct_of_multipliesTo hr).1
    simp only [total_cons, weight] at hw hrest
    refine List.forall_mem_cons.mpr ⟨?_, ih hus ?_⟩
    · exact not_scalesSum_of_multipliesTo hne hu hs hr (by omega)
    · omega

theorem scaled_eq_nil_or_lt (hterms : ∀ u ∈ terms, u.Atomic) (hd : merging.Distinct terms)
    (h : List.Forall₂ (fun u r => Expr.MultipliesTo Expr.LightensSum u.toExpr r)
      (scaled terms) rs) :
    scaled (mergeAll (kept terms) (rs.reverse.flatMap (Expr.scaledTerms 1))) = [] ∨
      total (weight 1) (mergeAll (kept terms) (rs.reverse.flatMap (Expr.scaledTerms 1))) <
        total (weight 1) terms := by
  rw [mergeAll_eq]
  refine (Nat.lt_or_ge _ _).symm.imp_left fun hw => ?_
  have hparts := total_scaled_add_kept_le (weight 1) terms
  have hspread := @total_flatMap_le α _ 1 Nat.one_lt_two.le rs.reverse
  rw [total_perm rs.reverse_perm] at hspread
  have hmerge := @total_addAll_le _ _ _ (kept terms)
    (rs.reverse.flatMap (Expr.scaledTerms 1)) (lightens_weight (α := α) Nat.one_pos)
  have hproducts := total_products_le 1 (h.imp fun _ _ => Expr.lightensProduct_of_multipliesTo)
  have hdistinct := distinct_of_total_addAll (lightens_weight (α := α) Nat.one_pos)
    (distinct_kept hd)
    (by omega : total (weight 1) (kept terms) +
      total (weight 1) (rs.reverse.flatMap (Expr.scaledTerms 1)) ≤ _)
  have hscaled (u : Term α) (hu : u ∈ scaled terms) :
      u.Atomic ∧ ¬u.coefficient == 0 ∧ u.scalesSum :=
    have ⟨hmem, hscales⟩ := mem_scaled.mp hu
    ⟨hterms u hmem, hscales⟩
  have hnews := not_scalesSum_of_products hscaled h (by omega)
  rw [addAll_eq_append hdistinct, List.eq_nil_iff_forall_not_mem]
  intro v hv
  have ⟨hmem, _, hscales⟩ := mem_scaled.mp hv
  cases List.mem_append.mp hmem with
  | inl hkept => exact (mem_kept.mp hkept).2.2 hscales
  | inr hnew  =>
    have ⟨r, hr, hv⟩ := List.mem_flatMap.mp hnew
    exact hnews r (List.mem_reverse.mp hr) v hv hscales

end Term

end InfixAlgebra
