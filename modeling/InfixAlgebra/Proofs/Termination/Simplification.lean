import InfixAlgebra.Proofs.Canonical.Induction
import InfixAlgebra.Proofs.Termination.Ending
import InfixAlgebra.Proofs.Termination.Rounds

namespace InfixAlgebra

open Merging Metered

variable {α : Type} [Scalar α] [NumberText α]

namespace Term

variable {u : Term α} {terms news : List (Term α)} {scale : α} {t : Expr α}

omit [NumberText α] in
theorem atomic_of_mem_scaledTerms (hu : u ∈ t.scaledTerms scale) : u.Atomic := by
  induction scale, t using Expr.scaledTerms_induct with
  | add scale a b iha ihb =>
    rw [Expr.scaledTerms] at hu
    exact (List.mem_append.mp hu).elim iha ihb
  | sub scale a b iha ihb =>
    rw [Expr.scaledTerms] at hu
    exact (List.mem_append.mp hu).elim iha ihb
  | scaled scale t s hs ih =>
    rw [Expr.scaledTerms_of_some hs] at hu
    exact ih hu
  | term scale t hs ht =>
    rw [Expr.scaledTerms_of_none hs ht, List.mem_singleton] at hu
    subst hu
    exact fun f hf => Expr.isAtom_of_mem_factors hf

structure Unsettled (terms : List (Term α)) : Prop where
  atomic   : ∀ u ∈ terms, u.Atomic
  distinct : merging.Distinct terms

omit [NumberText α] in
theorem Unsettled.mergeAll (h : Unsettled terms) (hnews : ∀ u ∈ news, u.Atomic) :
    Unsettled (mergeAll terms news) := by
  rw [mergeAll_eq]
  exact ⟨forall_addAll (fun _ _ _ hu _ => hu) h.atomic hnews,
    distinct_addAll stable_merging h.distinct⟩

omit [NumberText α] in
theorem Unsettled.kept (h : Unsettled terms) : Unsettled (kept terms) :=
  ⟨fun u hu => h.atomic u (mem_kept.mp hu).1, distinct_kept h.distinct⟩

end Term

namespace Expr

variable {d : Nat} {terms : List (Term α)} {addends : List (α × Expr α)} {t : Expr α}

omit [NumberText α] in
theorem ends_collect (scale : α) (t : Expr α) (terms : List (Term α)) :
    EndsAlways d (collect scale t terms) := by
  induction scale, t using scaledTerms_induct generalizing terms with
  | add scale a b iha ihb =>
    rw [collect]
    exact (Ends.charge 1).bind fun _ _ => (iha terms).bind fun ts _ => ihb ts
  | sub scale a b iha ihb =>
    rw [collect]
    exact (Ends.charge 1).bind fun _ _ => (iha terms).bind fun ts _ => ihb ts
  | scaled scale t s hs ih =>
    rw [collect_of_some hs]
    exact (Ends.charge 1).bind fun _ _ => ih terms
  | term scale t hs ht =>
    rw [collect_of_none hs ht]
    exact (Ends.charge 1).bind fun _ _ => .pure _

omit [NumberText α] in
theorem ends_settle_of_eq_nil (h : Term.scaled terms = [])
    (product : Nat → Expr α → Metered α (Expr α)) (k : Nat) :
    Ends d fun n => settle (product n) (n - k) terms := by
  refine .of_eventually (k + 1) (fun n hn => ?_) (.pure (Term.kept terms))
  have hrounds : n - k = n - (k + 1) + 1 := by omega
  rw [hrounds, settle_of_eq_nil h]

variable [Scalar.Regular α]

theorem multipliesTo_of_gives {n : Nat} {r : Expr α} (h : Gives (productWithin n t) r) :
    MultipliesTo LightensSum t r := by
  refine product_induct (fun addends r h => ?_) (fun t r h => h) n t r h
  exact lightensSum_of_sumsTo (h.mono fun _ _ => lightensProduct_of_multipliesTo)

theorem lightensSum_of_gives {n : Nat} {r : Expr α}
    (h : Gives (sumWith (productWithin n) n addends) r) : LightensSum addends r :=
  lightensSum_of_sumsTo ((sumsTo_of_gives_sumWith h).mono fun _ _ h =>
    lightensProduct_of_multipliesTo (multipliesTo_of_gives h))

-- Terms settle if the products that are lighter than they are come to an end.
theorem ends_settle {w : Nat} (hproduct : ∀ t : Expr α, t.weight < w → Ends d (productWithin · t))
    (hterms : Term.Unsettled terms) (hw : total (Term.weight 1) terms ≤ w) (k : Nat) :
    Ends d fun n => settle (productWithin n) (n - k) terms := by
  generalize htotal : total (Term.weight 1) terms = v
  induction v using Nat.strong_induction_on generalizing terms k with
  | h v ih =>
    by_cases hnil : Term.scaled terms = []
    case pos => exact ends_settle_of_eq_nil hnil _ k
    case neg =>
      have hrounds (n : Nat) (hn : k + 1 ≤ n) : n - k = n - (k + 1) + 1 := by omega
      refine .of_eventually (k + 1)
        (fun n hn => (congrArg (settle (productWithin n) · terms) (hrounds n hn)).trans
          (settle_of_ne_nil hnil _ _)) ?_
      refine Ends.bind (.mapM fun u hu => hproduct u.toExpr ?_) fun products hproducts => ?_
      · have hmem := (Term.mem_scaled.mp hu).1
        have hle : u.weight 1 ≤ total (Term.weight 1) terms :=
          List.le_sum_of_mem (List.mem_map_of_mem hmem)
        exact (Term.weight_toExpr_le u).trans_lt (hle.trans hw)
      refine (Ends.foldlM (fun ts t => ends_collect 1 t ts) _ _).bind fun ts hts => ?_
      have ⟨_, hproducts⟩ := hproducts
      have ⟨_, hts⟩ := hts
      obtain rfl := eq_of_gives_foldlM_collect hts
      have hproducts := hproducts.of_mapM.imp fun _ _ => multipliesTo_of_gives
      cases Term.scaled_eq_nil_or_lt hterms.atomic hterms.distinct hproducts with
      | inl hnil => exact ends_settle_of_eq_nil hnil _ (k + 1)
      | inr hlt  =>
        have hnews : ∀ u ∈ products.reverse.flatMap (scaledTerms 1), u.Atomic := fun u hu =>
          have ⟨_, _, hu⟩ := List.mem_flatMap.mp hu
          Term.atomic_of_mem_scaledTerms hu
        exact ih _ (htotal ▸ hlt) (hterms.kept.mergeAll hnews) (hlt.le.trans hw) (k + 1) rfl

theorem ends_sumWith {w : Nat}
    (hproduct : ∀ t : Expr α, t.weight < w → Ends d (productWithin · t))
    (hw : total (Term.weight 1) (scaledTermsOfAll addends) ≤ w) :
    Ends d fun n => sumWith (productWithin n) n addends := by
  refine Ends.bind (Ends.foldlM (fun ts x => ends_collect x.1 x.2 ts) addends [])
    fun terms hterms => ?_
  have ⟨_, hterms⟩ := hterms
  obtain rfl : terms = Term.mergeAll [] (scaledTermsOfAll addends) :=
    eq_of_gives_foldlM_collect hterms
  have hnone : Term.Unsettled ([] : List (Term α)) := ⟨nofun, .nil⟩
  have hunsettled : Term.Unsettled (Term.mergeAll [] (scaledTermsOfAll addends)) :=
    hnone.mergeAll fun u hu =>
      have ⟨_, _, hu⟩ := List.mem_flatMap.mp hu
      Term.atomic_of_mem_scaledTerms hu
  have hmerge := @total_addAll_le _ _ _ [] (scaledTermsOfAll addends)
    (Term.lightens_weight (α := α) Nat.one_pos)
  rw [total_nil, Nat.zero_add, ← Term.mergeAll_eq] at hmerge
  exact (ends_settle hproduct hunsettled (hmerge.trans hw) 0).bind fun terms _ =>
    (Ends.checkChain terms.length).bind fun _ _ => .pure (Term.sumOf terms)

-- A sum that stands alone.
theorem ends_sumWith_of_factors {s : Expr α}
    (hproduct : ∀ t : Expr α, t.weight < s.weight → Ends d (productWithin · t))
    (hf : t.factors = [s]) (hs : s.isSum) :
    Ends d fun n => sumWith (productWithin n) n [(1, t)] := by
  refine ends_sumWith hproduct ?_
  rw [scaledTermsOfAll, List.flatMap_singleton, ← weight_of_factors hf]
  exact total_scaledTerms_of_factors hf hs

omit [Scalar α] [NumberText α] [Scalar.Regular α] in
theorem mem_of_span {p : Expr α → Bool} {fs before after : List (Expr α)} {s : Expr α}
    (h : fs.span p = (before, s :: after)) : s ∈ fs ∧ p s = false := by
  rw [List.span_eq_takeWhile_dropWhile, Prod.mk.injEq] at h
  have hs : s ∈ fs.dropWhile p := h.2 ▸ List.mem_cons_self
  have hhead := List.head?_dropWhile_not p fs
  rw [h.2] at hhead
  exact ⟨(List.dropWhile_sublist p).subset hs, hhead⟩

theorem ends_spread {u : Term α} {w : Nat}
    (hproduct : ∀ t : Expr α, t.weight < w → Ends d (productWithin · t))
    (hw : total factorWeight u.factors ≤ w) :
    Ends d fun n => spread (sumWith (productWithin n) n) u := by
  unfold spread
  split
  case isFalse => exact .pure u
  case isTrue  =>
    split
    case h_2 => exact .pure u
    case h_1 before s after hspan =>
      have ⟨hmem, hs⟩ := mem_of_span hspan
      have hs : s.isSum := by simpa using hs
      have hle : s.factorWeight ≤ total factorWeight u.factors :=
        List.le_sum_of_mem (List.mem_map_of_mem hmem)
      have hsw := @weight_le_factorWeight α s
      have hsum := ends_sumWith_of_factors (fun t ht => hproduct t (by omega))
        (factors_mul_number (c := u.coefficient) hs) hs
      exact hsum.bind fun r _ => .pure _

-- Products end because the sums that they call for only ask for lighter products.
theorem ends_productWithin (t : Expr α) : Ends d (productWithin · t) := by
  generalize hw : t.weight = w
  induction w using Nat.strong_induction_on generalizing t with
  | h w ih =>
    subst hw
    have hproduct (t' : Expr α) (h : t'.weight < t.weight) : Ends d (productWithin · t') :=
      ih _ h t' rfl
    refine .of_succ ?_
    simp only [productWithin]
    refine Ends.bind (.charge _) fun _ _ => ?_
    split
    case isTrue      => exact .pure _
    case isFalse hne =>
      have hgroup := Power.total_group_le t.factors
      rw [total_factorWeight_factors] at hgroup
      refine (ends_spread hproduct hgroup).bind fun u hu => ?_
      have ⟨_, hu⟩ := hu
      replace hu := (spreads_of_gives_spread hu).mono fun _ _ => lightensSum_of_gives
      refine Ends.bind (.checkChain _) fun _ _ => ?_
      split
      case h_2      => exact .pure _
      case h_1 s hf =>
        split
        case isFalse    => exact .pure _
        case isTrue hs =>
          have hweight := (lightens_of_spreads hu).1
          rw [hf, total_cons, total_nil] at hweight
          have hfactors : u.toExpr.factors = [s] :=
            Term.factors_toExpr_of_isSum (nonzero_of_spreads hu hne) hf hs
          exact ends_sumWith_of_factors (fun t' ht' => hproduct t' (by omega)) hfactors hs

theorem ends_product (t : Expr α) : EndsAlways d (product t) :=
  (ends_productWithin t).of_nesting

theorem ends_sum (addends : List (α × Expr α)) : EndsAlways d (sum addends) :=
  (ends_sumWith (fun t _ => ends_productWithin t) (Nat.le_refl _)).of_nesting

-- Simplification follows the structure of an expression.
theorem ends_canonicalAt (t : Expr α) (depth : Nat) : EndsAlways d (t.canonicalAt depth) := by
  induction t generalizing depth with
  | number | constant | var =>
    rw [canonicalAt]
    exact (Ends.step depth).bind fun _ _ => .pure _
  | neg a ih =>
    rw [canonicalAt]
    exact (Ends.step depth).bind fun _ _ => (ih _).bind fun a' _ => ends_product _
  | binary op a b iha ihb =>
    rw [canonicalAt]
    refine (Ends.step depth).bind fun _ _ => (iha _).bind fun a' _ => (ihb _).bind fun b' _ => ?_
    cases op with
    | add | sub => exact ends_sum _
    | mul       => exact ends_product _
    | div | pow => exact .pure _
  | call f args ih =>
    have hargs (ts : List (Expr α)) (hts : ∀ t ∈ ts, t ∈ args) (depth : Nat) :
        EndsAlways d (canonicalAllAt ts depth) := by
      induction ts with
      | nil          => exact .pure []
      | cons t ts ih' =>
        obtain ⟨ht, hts⟩ := List.forall_mem_cons.mp hts
        exact (ih t ht depth).bind fun t' _ => (ih' hts).bind fun ts' _ => .pure _
    rw [canonicalAt]
    exact (Ends.step depth).bind fun _ _ => (hargs args (fun _ h => h) _).bind fun _ _ => .pure _

end Expr

end InfixAlgebra
