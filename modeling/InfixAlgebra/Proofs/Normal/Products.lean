import InfixAlgebra.Proofs.Normal.Sums

namespace InfixAlgebra

open Merging Scalar.Regular

variable {α : Type} [Scalar α] [NumberText α] [Scalar.Regular α]

namespace Power

variable {f : Expr α} {fs : List (Expr α)}

theorem grouped_sort (hd : merging.Distinct (fs.map ofExpr)) :
    Grouped (SortKey.sort Expr.sortKey fs) where
  distinct := by
    have hperm := ((SortKey.perm_sort Expr.sortKey fs).map ofExpr).symm
    exact (hperm.pairwise_iff fun hne h => hne ((Expr.same_comm beq_comm ..).trans h)).mp hd
  ordered  := SortKey.ordered_sort ..

theorem grouped_group (hfs : ∀ f ∈ fs, f.isAtom ∧ f.Normal)
    (hd : merging.Distinct (fs.map ofExpr)) :
    Grouped (group fs) ∧ ∀ f ∈ group fs, f.isAtom ∧ f.Normal := by
  rw [group_eq_sort (fun f hf => (hfs f hf).2) hd]
  exact ⟨grouped_sort hd, fun f hf => hfs f ((SortKey.perm_sort _ fs).mem_iff.mp hf)⟩

-- What is not a single factor has no exponent that could be merged or dropped.
theorem mem_group (hd : merging.Distinct (fs.map ofExpr)) (hf : f ∈ fs) (hatom : ¬f.isAtom) :
    f ∈ group fs := by
  have hpower : ofExpr f = ⟨f, 1⟩ := by
    cases f.exists_of_exponent with
    | inr h => exact h
    | inl h =>
      have ⟨a, x, h⟩ := h
      exact absurd (h ▸ rfl) hatom
  have hmem : (⟨f, 1⟩ : Power α) ∈ nonzero (fs.map ofExpr) :=
    List.mem_filter.mpr ⟨hpower ▸ List.mem_map_of_mem hf, by simpa using not_one_beq_zero⟩
  rw [group_eq, mergeAll_eq, addAll_nil hd, (SortKey.perm_sort _ _).mem_iff]
  exact List.mem_map.mpr ⟨_, hmem, if_pos one_beq_one⟩

-- Nothing is lost only where there are single factors of different bases.
theorem isAtom_of_total_group
    (h : total Expr.factorWeight fs ≤ total Expr.weight (group fs)) :
    merging.Distinct (fs.map ofExpr) ∧ ∀ f ∈ fs, f.isAtom := by
  have hd := distinct_of_total_group (h.trans (Expr.total_weight_le (group fs)))
  refine ⟨hd, fun f hf => ?_⟩
  by_contra hatom
  exact hatom (Expr.isAtom_of_total_le ((total_group_le fs).trans h) f (mem_group hd hf hatom))

end Power

namespace Expr

variable {t r s : Expr α} {c : α} {u u' : Term α}

omit [Scalar α] [NumberText α] [Scalar.Regular α] in
theorem factors_mul_number (hs : s.isSum) : (mul (number c) s).factors = [s] :=
  factors_of_isSum hs

omit [Scalar.Regular α] in
theorem factorWeight_of_lightensSum (h : LightensSum [(1, mul (number c) s)] r) (hs : s.isSum) :
    r.factorWeight ≤ s.factorWeight := by
  have hf : (mul (number c) s).factors = [s] := factors_mul_number hs
  rw [factorWeight_of_isAtom (isAtom_of_isSum hs), ← weight_of_factors hf]
  exact (h _ s rfl hf hs).1

theorem nonzero_of_spreads {sum : List (α × Expr α) → Expr α → Prop} (h : Spreads sum u u')
    (hne : ¬u.coefficient == 0) : ¬u'.coefficient == 0 := by
  cases h with
  | none => exact hne
  | into => exact not_one_beq_zero

theorem total_spreads_le (h : Spreads LightensSum u u') :
    total factorWeight u'.factors ≤ total factorWeight u.factors := by
  cases h with
  | none => exact Nat.le_refl _
  | @into c before after s r _ _ hs hsum =>
    have hle := factorWeight_of_lightensSum hsum hs
    refine (Power.total_group_le _).trans ?_
    simp only [total_append, total_cons]
    omega

theorem composed_of_spreads (h : Spreads LightensSum u u') (hg : Grouped u.factors)
    (hu : ∀ f ∈ u.factors, f.isAtom ∧ f.Normal)
    (hw : total factorWeight u.factors ≤ total weight u'.factors) :
    Grouped u'.factors ∧ (∀ f ∈ u'.factors, f.isAtom ∧ f.Normal) ∧ ¬u'.scalesSum := by
  cases h with
  | none hn => exact ⟨hg, hu, hn⟩
  | @into c before after s r _ _ hs hsum =>
    replace hw : total factorWeight (before ++ s :: after) ≤
      total weight (Power.group (before ++ r :: after)) := hw
    have hparts (f : Expr α) : total factorWeight (before ++ f :: after) =
        total factorWeight before + (f.factorWeight + total factorWeight after) := by
      rw [total_append, total_cons]
    have hle := factorWeight_of_lightensSum hsum hs
    have hr := hparts r
    rw [hparts s] at hw
    have hall : total factorWeight (before ++ r :: after) ≤
        total weight (Power.group (before ++ r :: after)) := by omega
    have ⟨hd, hatoms⟩ := Power.isAtom_of_total_group hall
    have ⟨hbefore, hrest⟩ := List.forall_mem_append.mp hu
    have ⟨hs', hafter⟩ := List.forall_mem_cons.mp hrest
    -- The sum remains as heavy as it was, so it is in normal form with its new number as well.
    have hatom : r.isAtom := hatoms r (List.mem_append_right _ List.mem_cons_self)
    have hnormal : r.Normal := by
      have hf : (mul (number c) s).factors = [s] := factors_mul_number hs
      have hgroup := Power.total_group_le (before ++ r :: after)
      have hweight := total_weight_le (Power.group (before ++ r :: after))
      refine (hsum _ s rfl hf hs).2 (composed_of_factors hf hs hs'.2) ?_
      rw [weight_of_factors hf, ← factorWeight_of_isAtom hs'.1, ← factorWeight_of_isAtom hatom]
      omega
    have hfactors : ∀ f ∈ before ++ r :: after, f.isAtom ∧ f.Normal :=
      List.forall_mem_append.mpr ⟨hbefore, List.forall_mem_cons.mpr ⟨⟨hatom, hnormal⟩, hafter⟩⟩
    have ⟨hg', hu'⟩ := Power.grouped_group hfactors hd
    exact ⟨hg', hu', by simp [Term.scalesSum, one_beq_one]⟩

-- What becomes of the factors of a product, up to where a sum among them stands alone.
theorem lightens_of_spreads
    (h : Spreads LightensSum ⟨t.coefficient, Power.group t.factors⟩ u) :
    total weight u.factors ≤ t.weight ∧
      ((∀ f ∈ t.factors, f.Normal) → t.weight ≤ total weight u.factors →
        Grouped u.factors ∧ (∀ f ∈ u.factors, f.isAtom ∧ f.Normal) ∧ ¬u.scalesSum) := by
  have hgroup := Power.total_group_le t.factors
  have hspread : total factorWeight u.factors ≤ total factorWeight (Power.group t.factors) :=
    total_spreads_le h
  have hweight := total_weight_le u.factors
  rw [total_factorWeight_factors] at hgroup
  refine ⟨by omega, fun hnormal hw => ?_⟩
  have hd : Power.merging.Distinct (t.factors.map Power.ofExpr) := by
    refine Power.distinct_of_total_group ?_
    rw [total_factorWeight_factors]
    omega
  have hfactors : ∀ f ∈ t.factors, f.isAtom ∧ f.Normal :=
    fun f hf => ⟨isAtom_of_mem_factors hf, hnormal f hf⟩
  have ⟨hg, hu⟩ := Power.grouped_group hfactors hd
  exact composed_of_spreads h hg hu (hgroup.trans hw)

theorem lightensProduct_of_multipliesTo (h : MultipliesTo LightensSum t r) :
    LightensProduct t r := by
  cases h with
  | zero => exact ⟨Nat.zero_le _, fun _ _ => .number 0⟩
  | @sum u s _ hne hu hf hs hsum =>
    have ⟨hle, hnormal⟩ := lightens_of_spreads hu
    have hfactors : u.toExpr.factors = [s] :=
      Term.factors_toExpr_of_isSum (nonzero_of_spreads hu hne) hf hs
    have ⟨hle', hnormal'⟩ := hsum _ s rfl hfactors hs
    have hr := @weight_le_factorWeight α r
    have hu' : u.toExpr.weight = total weight u.factors := by rw [weight_eq_total, hfactors, hf]
    refine ⟨by omega, fun ht hw => ?_⟩
    have ⟨_, hs', _⟩ := hnormal ht (by omega)
    have hs' : s.Normal := (hs' s (hf ▸ List.mem_singleton_self s)).2
    exact hnormal' (composed_of_factors hfactors hs hs') (by omega)
  | @term u hne hu hf =>
    have hu₀ := nonzero_of_spreads hu hne
    have ⟨hle, hnormal⟩ := lightens_of_spreads hu
    have hle' := Term.weight_toExpr_le u
    refine ⟨by omega, fun ht hw => ?_⟩
    have ⟨hg, hfactors, hscales⟩ := hnormal ht (by omega)
    exact normal_toExpr (Term.Composed.settled ⟨hg, hfactors, hf⟩ hu₀ hscales)

end Expr

end InfixAlgebra
