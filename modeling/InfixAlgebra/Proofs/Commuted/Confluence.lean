import InfixAlgebra.Proofs.Canonical.Determinacy
import InfixAlgebra.Proofs.Canonical.Keyed
import InfixAlgebra.Proofs.Commuted.Tidy
import InfixAlgebra.Proofs.Printer.Distinct

namespace InfixAlgebra

open Merging Metered

theorem eq_of_forall₂ {β γ : Type} {R S : β → γ → Prop} {xs : List β} {ys zs : List γ}
    (hRS : ∀ x y z, R x y → S x z → y = z) (h : List.Forall₂ R xs ys)
    (h' : List.Forall₂ S xs zs) : ys = zs := by
  induction h generalizing zs with
  | nil =>
    cases h'
    rfl
  | cons hy _ ih =>
    cases h' with
    | cons hz hzs => rw [hRS _ _ _ hy hz, ih hzs]

variable {ops : Operations}

namespace Term

variable {u v : Term (Total ops)} {terms terms' news news' result result' : List (Term (Total ops))}
  {P Q : Expr (Total ops) → Expr (Total ops) → Prop}

theorem adds_merging : (merging (α := Total ops)).Adds factors coefficient where
  alike      := beq_iff_eq
  key_join   := rfl
  value_join := rfl

-- The order in which terms are merged shows in nothing but their order.
theorem perm_nonzero_mergeAll (hd : merging.Distinct terms) (hd' : merging.Distinct terms')
    (hp : terms.Perm terms') (hnews : news.Perm news') :
    (nonzero (mergeAll terms news)).Perm (nonzero (mergeAll terms' news')) := by
  rw [mergeAll_eq, mergeAll_eq]
  refine adds_merging.perm_filter_addAll (fun u => ?_) (fun u v hfactors hcoefficient => ?_) hd hd'
    (hp.append hnews)
  · rw [Bool.not_eq_true', ← Bool.not_eq_true, Total.beq_iff]
  · cases u
    cases v
    cases hfactors
    cases hcoefficient
    rfl

theorem Settles.distinct (h : Settles P terms result) (hd : merging.Distinct terms) :
    merging.Distinct result := by
  induction h with
  | done => exact distinct_kept hd
  | round _ _ _ ih =>
    refine ih ?_
    rw [mergeAll_eq]
    exact distinct_addAll stable_merging (distinct_kept hd)

-- So does the order of terms that are settled.
theorem Settles.perm (hPQ : ∀ t r r', P t r → Q t r' → r = r') (h : Settles P terms result)
    (h' : Settles Q terms' result') (hd : merging.Distinct terms) (hd' : merging.Distinct terms')
    (hp : (nonzero terms).Perm (nonzero terms')) : result.Perm result' := by
  induction h generalizing terms' with
  | done hnil =>
    have hscaled := hp.filter scalesSum
    cases h' with
    | done            => exact hp.filter _
    | round hne _ _   => exact absurd (List.perm_nil.mp (hscaled.symm.trans (.of_eq hnil))) hne
  | round hne hproducts _ ih =>
    have hscaled := hp.filter scalesSum
    cases h' with
    | done hnil => exact absurd (List.perm_nil.mp (hscaled.trans (.of_eq hnil))) hne
    | round _ hproducts' hs =>
      have ⟨_, hQ, hperm⟩ := List.perm_comp_forall₂ hscaled hproducts'
      obtain rfl := eq_of_forall₂ (fun t r r' => hPQ t.toExpr r r') hproducts hQ
      have hdistinct {terms news : List (Term (Total ops))} (hd : merging.Distinct terms) :
          merging.Distinct (mergeAll (kept terms) news) := by
        rw [mergeAll_eq]
        exact distinct_addAll stable_merging (distinct_kept hd)
      refine ih hs (hdistinct hd) (hdistinct hd') ?_
      refine perm_nonzero_mergeAll (distinct_kept hd) (distinct_kept hd') (hp.filter _) ?_
      exact ((List.reverse_perm _).trans (hperm.trans (List.reverse_perm _).symm)).flatMap_right _

variable [NumberText (Total ops)]

theorem Tidy.factors_eq_of_sortKey (hlit : DistinctLiterals (Total ops)) (hu : u.Tidy)
    (hv : v.Tidy) (h : u.sortKey = v.sortKey) : u.factors = v.factors := by
  have hrank {f : Expr (Total ops)} (hf : f.isAtom) : f.rank ≠ 0 := by
    cases f with
    | number x => cases hf
    | _        => exact Nat.succ_ne_zero _
  obtain ⟨x, fs⟩ := u
  obtain ⟨y, gs⟩ := v
  cases fs with
  | nil =>
    cases gs with
    | nil       => rfl
    | cons g gs => exact absurd (congrArg SortKey.rank h).symm (hrank (hv g List.mem_cons_self).1)
  | cons f fs =>
    cases gs with
    | nil       => exact absurd (congrArg SortKey.rank h) (hrank (hu f List.mem_cons_self).1)
    | cons g gs =>
      have htext : (mk (1 : Total ops) (f :: fs)).toExpr.render =
          (mk (1 : Total ops) (g :: gs)).toExpr.render := congrArg SortKey.text h
      have heq := (tidy_toExpr_one fun f hf => (hu f hf).2).eq_of_render hlit
        (tidy_toExpr_one fun g hg => (hv g hg).2) htext
      have hfactors {fs : List (Expr (Total ops))} (hfs : ∀ f ∈ fs, f.isAtom) :
          (mk (1 : Total ops) fs).toExpr.factors = fs :=
        factors_toExpr Scalar.Regular.not_one_beq_zero hfs
      rw [← hfactors fun f hf => (hu f hf).1, heq, hfactors fun g hg => (hv g hg).1]

theorem sumOf_eq_of_perm_tidy (hlit : DistinctLiterals (Total ops)) (hterms : ∀ u ∈ terms, u.Tidy)
    (hd : merging.Distinct terms) (h : terms.Perm terms') : sumOf terms = sumOf terms' := by
  have hsymm : Std.Symm fun u v : Term (Total ops) => ¬merging.alike u v :=
    ⟨fun _ _ hne h => hne (adds_merging.alike.mpr (adds_merging.alike.mp h).symm)⟩
  have hkey : ∀ u ∈ terms, ∀ v ∈ terms, sortKey u = sortKey v → u = v := by
    intro u hu v hv huv
    by_contra hne
    refine hd.forall hu hv hne (adds_merging.alike.mpr ?_)
    exact (hterms u hu).factors_eq_of_sortKey hlit (hterms v hv) huv
  rw [sumOf, sumOf, SortKey.sort_eq_sort_of_perm h hkey]

end Term

namespace Power

variable {fs gs : List (Expr (Total ops))}

theorem adds_merging : (merging (α := Total ops)).Adds base exponent where
  alike      := beq_iff_eq
  key_join   := rfl
  value_join := rfl

theorem perm_nonzero_mergeAll (h : fs.Perm gs) :
    (nonzero (mergeAll [] fs)).Perm (nonzero (mergeAll [] gs)) := by
  rw [mergeAll_eq, mergeAll_eq]
  refine adds_merging.perm_filter_addAll (fun p => ?_) (fun p q hbase hexponent => ?_) .nil .nil
    (h.map _)
  · rw [Bool.not_eq_true', ← Bool.not_eq_true, Total.beq_iff]
  · cases p
    cases q
    cases hbase
    cases hexponent
    rfl

variable [NumberText (Total ops)]

-- Factors are grouped alike in whatever order they come.
theorem group_eq_of_perm (hlit : DistinctLiterals (Total ops)) (hfs : ∀ f ∈ fs, f.TidyFactor)
    (h : fs.Perm gs) : group fs = group gs := by
  have htidy : ∀ f ∈ (nonzero (mergeAll [] fs)).map toExpr, f.Tidy := by
    intro f hf
    have ⟨p, hp, hpf⟩ := List.mem_map.mp hf
    have hp := tidyFactor_mergeAll hfs p (List.mem_of_mem_filter hp)
    exact hpf ▸ (tidyFactor_toExpr hp).tidy
  rw [group_eq, group_eq]
  refine SortKey.sort_eq_sort_of_perm ((perm_nonzero_mergeAll h).map _) fun f hf g hg hfg => ?_
  exact (htidy f hf).eq_of_render hlit (htidy g hg) (congrArg SortKey.text hfg)

end Power

namespace Expr

variable [NumberText (Total ops)] {t t' r r' : Expr (Total ops)}
  {addends addends' : List (Total ops × Expr (Total ops))}

-- A product is computed from its number and its grouped factors.
theorem productWithin_eq_of_group (n : Nat) (hc : t.coefficient = t'.coefficient)
    (hlength : t.factors.length = t'.factors.length)
    (hg : Power.group t.factors = Power.group t'.factors) :
    productWithin n t = productWithin n t' := by
  cases n with
  | zero   => rfl
  | succ n => rw [productWithin, productWithin, hc, hlength, hg]

theorem eq_of_gives_sum (hlit : DistinctLiterals (Total ops)) (haddends : ∀ p ∈ addends, p.2.Tidy)
    (hp : (scaledTermsOfAll addends).Perm (scaledTermsOfAll addends'))
    (h : Gives (sum addends) r) (h' : Gives (sum addends') r') : r = r' := by
  have ⟨n, _, hr⟩ := h.exists_of_bind
  have ⟨m, _, hr'⟩ := h'.exists_of_bind
  obtain ⟨terms, hs, rfl⟩ := sumsTo_of_gives_sumWith hr
  obtain ⟨terms', hs', rfl⟩ := sumsTo_of_gives_sumWith hr'
  have hdistinct (news : List (Term (Total ops))) : Term.merging.Distinct (Term.mergeAll [] news) := by
    rw [Term.mergeAll_eq]
    exact distinct_addAll Term.stable_merging .nil
  have hperm := hs.perm (fun t _ _ => (agree_productWithin n m t).eq) hs' (hdistinct _) (hdistinct _)
    (Term.perm_nonzero_mergeAll .nil .nil .nil hp)
  have hscaled : ∀ u ∈ scaledTermsOfAll addends, u.Tidy := by
    intro u hu
    have ⟨p, hp, hu⟩ := List.mem_flatMap.mp hu
    exact Term.tidy_scaledTerms (haddends p hp) u hu
  have htidy := tidy_settles (hs.mono (product_induct (fun _ _ => tidySum_of_sumsTo)
    (fun _ _ => tidyProduct_of_multipliesTo) n)) (Term.tidy_mergeAll nofun hscaled)
  exact Term.sumOf_eq_of_perm_tidy hlit htidy (hs.distinct (hdistinct _)) hperm

end Expr

end InfixAlgebra
