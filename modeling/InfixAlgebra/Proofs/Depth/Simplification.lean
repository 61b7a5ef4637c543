import InfixAlgebra.Proofs.Depth.Reach
import InfixAlgebra.Proofs.Normal.Idempotence
import InfixAlgebra.Source

namespace InfixAlgebra

open Merging Scalar.Regular

variable {α : Type} [Scalar α] [NumberText α]

namespace Expr

-- A product reaches no further than what is multiplied, and as an addend no further than its
-- factors do.
def ReachesProduct (t r : Expr α) : Prop :=
  r.span ≤ max 2 (total reach t.factors) ∧ r.reach ≤ t.reach

-- Of a sum alone, the number that may stand next to it aside.
def ReachesSum (addends : List (α × Expr α)) (r : Expr α) : Prop :=
  ∀ t s, addends = [(1, t)] → t.factors = [s] → s.isSum → r.reach ≤ s.reach

variable {t r s : Expr α} {c : α} {u u' : Term α} {addends : List (α × Expr α)}
  {terms : List (Term α)}

omit [NumberText α] in
theorem total_extent_of_factors (hf : t.factors = [s]) (hs : s.isSum) :
    total (Term.extent 0) (t.scaledTerms 1) + 2 ≤ s.reach ∧
      total (Term.extent 1) (t.scaledTerms 1) ≤ s.reach := by
  have hspan := span_of_isSum hs
  by_cases ht : t.isSum
  case pos =>
    rw [factors_of_isSum ht] at hf
    obtain rfl := List.singleton_inj.mp hf
    have hzero := total_extent_of_isSum hs (1 : α)
    have hone := total_extent_le (Nat.le_refl 1) (1 : α) t
    omega
  case neg =>
    rw [scaledTerms_of_some (scaledSum?_of_factors hf hs ht)]
    have hzero := total_extent_of_isSum hs (1 * t.coefficient)
    have hone := total_extent_le (Nat.le_refl 1) (1 * t.coefficient) s
    omega

end Expr

namespace Term

variable {u : Term α} {us : List (Term α)}

omit [NumberText α] in
theorem reach_append_le (left : Expr α) (u : Term α) :
    (sumOf.append left u).isSum ∧ (sumOf.append left u).reach ≤ left.span + extent 1 u := by
  have hneg : (mk (-u.coefficient) u.factors).toExpr.span ≤ max 2 (total Expr.reach u.factors) :=
    span_toExpr_le _
  have hpos := span_toExpr_le u
  unfold sumOf.append
  split
  case isTrue =>
    rw [Expr.reach_sum (.inr rfl), extent]
    exact ⟨rfl, by omega⟩
  case isFalse =>
    rw [Expr.reach_sum (.inl rfl), extent]
    exact ⟨rfl, by omega⟩

omit [NumberText α] in
theorem reach_foldl_append_le {left : Expr α} (hl : left.isSum) (us : List (Term α)) :
    (us.foldl sumOf.append left).reach ≤ left.reach + total (extent 1) us := by
  induction us generalizing left with
  | nil => exact Nat.le_refl _
  | cons u us ih =>
    have ⟨hsum, hle⟩ := reach_append_le left u
    have hrest := ih hsum
    rw [← Expr.span_of_isSum hl] at hle
    rw [total_cons, List.foldl_cons]
    omega

-- A sum reaches as far as its terms do together, unless there is but one.
theorem reach_sumOf (terms : List (Term α)) :
    (sumOf terms).reach ≤ max 2 (total (extent 1) terms) ∨
      (sumOf terms).reach ≤ total (extent 0) terms + 2 := by
  have hperm := SortKey.perm_sort sortKey terms
  rw [← total_perm hperm, ← total_perm hperm, sumOf]
  cases SortKey.sort sortKey terms with
  | nil => exact .inl (Nat.le_refl 2)
  | cons u us =>
    cases us with
    | nil =>
      have hu := reach_toExpr_le u
      refine .inr ?_
      show u.toExpr.reach ≤ total (extent 0) [u] + 2
      rw [total_cons, total_nil, extent]
      split at hu <;> omega
    | cons v vs =>
      have hu := span_toExpr_le u
      obtain ⟨hsum, hv⟩ := reach_append_le u.toExpr v
      have hvs := reach_foldl_append_le hsum vs
      have hextent : max 2 (total Expr.reach u.factors) = extent 1 u := by
        rw [extent]
        omega
      refine .inl ?_
      show (vs.foldl sumOf.append (sumOf.append u.toExpr v)).reach ≤ _
      rw [total_cons, total_cons]
      omega

end Term

namespace Expr

variable {t r s : Expr α} {c : α} {u u' : Term α} {addends : List (α × Expr α)}
  {terms result : List (Term α)}

omit [NumberText α] in
theorem total_extent_of_settles {own : Nat} (h : own ≤ 1)
    (hs : Term.Settles ReachesProduct terms result) :
    total (Term.extent own) result ≤ total (Term.extent own) terms := by
  refine Term.total_le_of_settles (Term.lightens_extent own) (fun u r hr => ?_) hs
  have hterms := total_extent_le h 1 r
  have hfactors := u.toExpr.total_factors_le
  have hspan := Term.span_toExpr_le u
  have hr := hr.1
  rw [Term.extent]
  omega

theorem reachesSum_of_sumsTo (h : SumsTo ReachesProduct addends r) : ReachesSum addends r := by
  rintro t s rfl hf hs
  have ⟨terms, hsettles, hr⟩ := h
  have haddends : scaledTermsOfAll [(1, t)] = t.scaledTerms 1 := List.append_nil _
  rw [haddends, Term.mergeAll_eq] at hsettles
  have hmerge (own : Nat) :=
    @total_addAll_le _ _ _ [] (t.scaledTerms 1) (Term.lightens_extent (α := α) own)
  have hzero := (total_extent_of_settles (Nat.zero_le 1) hsettles).trans (hmerge 0)
  have hone := (total_extent_of_settles (Nat.le_refl 1) hsettles).trans (hmerge 1)
  have ⟨hzero', hone'⟩ := total_extent_of_factors hf hs
  have htwo := s.two_le_reach
  rw [total_nil] at hzero hone
  rw [hr]
  rcases Term.reach_sumOf terms with hle | hle <;> omega

variable [Scalar.Regular α]

theorem reach_spreads_le (h : Spreads ReachesSum ⟨t.coefficient, Power.group t.factors⟩ u) :
    total reach u.factors ≤ total reach t.factors ∧
      (u.coefficient = t.coefficient ∨ u.coefficient == 1) := by
  have hgroup := Power.total_group_reach_le t.factors
  generalize Power.group t.factors = fs at *
  cases h with
  | none => exact ⟨hgroup, .inl rfl⟩
  | @into _ before after s r _ _ hs hsum =>
    have hle := hsum _ s rfl (factors_mul_number hs) hs
    have hgroup' := Power.total_group_reach_le (before ++ r :: after)
    simp only [total_append, total_cons] at hgroup hgroup'
    exact ⟨by dsimp only; omega, .inr one_beq_one⟩

theorem reachesProduct_of_multipliesTo (h : MultipliesTo ReachesSum t r) :
    ReachesProduct t r := by
  have htwo := t.two_le_reach
  have hfactors := t.total_factors_le
  have hspan := t.span_le_reach
  cases h with
  | zero => exact ⟨Nat.le_max_left .., htwo⟩
  | @sum u s _ hne hu hf hs hsum =>
    have ⟨hle, hc⟩ := reach_spreads_le hu
    have hne' : ¬u.coefficient == 0 := by
      rcases hc with hc | hc
      case inl => exact hc ▸ hne
      case inr => exact eq_one hc ▸ not_one_beq_zero
    have hfactors' : u.toExpr.factors = [s] := Term.factors_toExpr_of_isSum hne' hf hs
    have hr := hsum _ s rfl hfactors' hs
    have hspan' := r.span_le_reach
    rw [hf, total_cons, total_nil] at hle
    exact ⟨by omega, by omega⟩
  | @term u hne hu hf =>
    have ⟨hle, hc⟩ := reach_spreads_le hu
    have hspan' := Term.span_toExpr_le u
    have hreach := Term.reach_toExpr_le u
    refine ⟨by omega, ?_⟩
    -- A number in front comes from one that was there before.
    rcases t.total_factors_lt_or with hlt | hplain
    case inl => split at hreach <;> omega
    case inr =>
      have hone : u.coefficient == 1 := by
        rcases hc with hc | hc
        case inl => rw [hc, coefficient, hplain]; exact one_beq_one
        case inr => exact hc
      rw [if_pos hone] at hreach
      omega

-- What becomes of an expression reaches no further than its nodes would if they all were in a row.
def ReachesSize (t r : Expr α) : Prop :=
  r.reach ≤ t.size + 1

omit [Scalar α] [NumberText α] [Scalar.Regular α] in
theorem spanOfAll_le {args args' : List (Expr α)} (h : List.Forall₂ ReachesSize args args') :
    spanOfAll args' ≤ sizeOfAll args + 1 := by
  induction h with
  | nil => exact Nat.le_refl 1
  | @cons a a' as as' ha _ ih =>
    have ha : a'.span + a'.lead ≤ a.size + 1 := ha
    rw [spanOfAll, sizeOfAll]
    omega

omit [NumberText α] [Scalar.Regular α] in
theorem reachesSize_of_becomes (h : Becomes ReachesProduct ReachesSum ReachesSize t r) :
    ReachesSize t r := by
  cases h with
  | number x   => exact Nat.le_refl 2
  | constant c => exact Nat.le_refl 2
  | var name   => exact Nat.le_refl 2
  | @neg a a' _ ha hr =>
    exact hr.2.trans (Nat.succ_le_succ ha)
  | @sum op a a' b b' _ ho ha hb hr =>
    have hsum : (binary op a' b').isSum := by rcases ho with rfl | rfl <;> rfl
    have hle := hr _ _ rfl (factors_of_isSum hsum) hsum
    have hspan := a'.span_le_reach
    have hspan' := b'.span_le_reach
    unfold ReachesSize at *
    rw [reach_sum ho] at hle
    rw [size]
    omega
  | @mul a a' b b' _ ha hb hr =>
    have hle := hr.2.trans (reach_mul_le a' b')
    unfold ReachesSize at *
    rw [size]
    omega
  | @div a a' b b' ha hb =>
    have hdiv : (div a' b').reach = a'.reach + b'.reach := rfl
    unfold ReachesSize at *
    rw [size]
    rcases quotient_cases a' b' with ⟨_, hr⟩ | hr | ⟨x, hr⟩ <;> rw [hr]
    case inl       => omega
    case inr.inl   => omega
    case inr.inr   => exact Nat.le_add_left ..
  | @pow a a' b b' ha hb =>
    have hpow := reach_pow_le a' b'
    unfold ReachesSize at *
    rw [size]
    rcases power_cases a' b' with ⟨_, hr⟩ | ⟨_, hr⟩ | ⟨x, hr⟩ <;> rw [hr]
    case inl       => omega
    case inr.inl   => omega
    case inr.inr   => exact Nat.le_add_left ..
  | @call f args args' hargs =>
    have hle := spanOfAll_le hargs
    have hcall : (call f args').reach = spanOfAll args' + 1 := rfl
    unfold ReachesSize
    rw [size]
    rcases application_cases f args' with ⟨_, hr⟩ | ⟨x, hr⟩ <;> rw [hr]
    case inl => omega
    case inr => exact Nat.le_add_left ..

-- No canonical form is deeper than the expression is large.
theorem depth_canonical_le {config : Config α} (h : t.canonical config = .ok r) :
    r.depth ≤ t.size := by
  have hreach : ReachesSize t r :=
    canonical_induct (fun _ _ => reachesSum_of_sumsTo) (fun _ _ => reachesProduct_of_multipliesTo)
      (fun _ _ => reachesSize_of_becomes) h
  exact Nat.le_of_lt_succ (r.depth_lt_reach.trans_le hreach)

end Expr

namespace Source

variable [Scalar.Regular α] {config : Config α} {scope : Scope α} {s : Source α} {t r : Expr α}

omit [Scalar.Regular α] in
theorem canonical_of_simplify (ht : s.resolve config = .ok t)
    (hr : s.simplify config scope = .ok (.expr r)) : t.canonical config = .ok r := by
  have hr : t.simplify config scope = .ok (.expr r) := by rwa [simplify, ht] at hr
  unfold Expr.simplify at hr
  split at hr
  case isTrue =>
    obtain ⟨r', hc, hr⟩ := exists_of_map_eq_ok hr
    cases hr
    exact hc
  case isFalse =>
    obtain ⟨v, _, hr⟩ := exists_of_map_eq_ok hr
    cases hr

omit [Scalar.Regular α] in
theorem simplify_of_canonical (ht : s.resolve config = .ok t) (hr : t.canonical config = .ok r) :
    s.simplify config .empty = .ok (.expr r) := by
  have hsimplify : t.simplify config .empty = .expr <$> t.canonical config := if_pos rfl
  rw [simplify, ht]
  show t.simplify config .empty = _
  rw [hsimplify, hr]
  rfl

-- A simplified expression is accepted again under a limit that admits as many levels as what it
-- came from had nodes, for it is never deeper than that.
theorem resolve_simplified (ht : s.resolve config = .ok t)
    (hr : s.simplify config scope = .ok (.expr r)) :
    r.depth ≤ t.size ∧ (t.size ≤ config.maxDepth → (tree r).resolve config = .ok r) := by
  have hle := Expr.depth_canonical_le (canonical_of_simplify ht hr)
  refine ⟨hle, fun hsize => ?_⟩
  rw [resolve, Expr.checkDepth, if_neg (Nat.not_lt.mpr (hle.trans hsize))]
  rfl

-- A number goes into a sum, which does not become deeper by it.
theorem resolve_simplified_of_scaled_sum :
    let config : Config Float := { Config.standard with maxDepth := 5 }
    let x : Expr Float := .var "x"
    let y : Expr Float := .var "y"
    let t := Expr.mul (.number 2) (.add x y)
    let r := Expr.add (.mul (.number 2) x) (.mul (.number 2) y)
    (tree t).simplify config .empty = .ok (.expr r) ∧ r.depth ≤ t.size ∧
      (tree r).resolve config = .ok r := by
  intro config x y t r
  have ht : (tree t).resolve config = .ok t := rfl
  have hcanonical : t.canonical config = .ok r := by decide +kernel
  have hsimplify := simplify_of_canonical ht hcanonical
  have ⟨hle, hresolve⟩ := resolve_simplified ht hsimplify
  exact ⟨hsimplify, hle, hresolve (by decide)⟩

-- The limit admits four terms in a row, and two factors. Where the first term has two factors, it
-- lies deeper than both.
theorem not_resolve_simplified_of_leading_product :
    let config : Config Float := { Config.standard with maxDepth := 4 }
    let a : Expr Float := .var "a"
    let b : Expr Float := .var "b"
    let x : Expr Float := .var "x"
    let y : Expr Float := .var "y"
    let z : Expr Float := .var "z"
    let r := Expr.add (.add (.add (.mul a b) x) y) z
    (text "a * b + x + (y + z)").simplify config .empty = .ok (.expr r) ∧
      (tree r).resolve config = .error (.tooDeep 4) := by
  intro config a b x y z r
  let t := Expr.add (.add (.mul a b) x) (.add y z)
  have ht : (text "a * b + x + (y + z)").resolve config = .ok t := rfl
  have hcanonical : t.canonical config = .ok r := by decide +kernel
  exact ⟨simplify_of_canonical ht hcanonical, rfl⟩

end Source

end InfixAlgebra
