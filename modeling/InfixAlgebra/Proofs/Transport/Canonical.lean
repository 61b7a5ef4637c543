import InfixAlgebra.Proofs.Transport.Basic
import InfixAlgebra.Proofs.Transport.Running

namespace InfixAlgebra

open Metered

variable {α β : Type}

-- Sorting by corresponding keys.
theorem SortKey.sort_map {γ δ : Type} {key : γ → SortKey} {key' : δ → SortKey} {g : γ → δ}
    (hkey : ∀ x, key' (g x) = key x) (xs : List γ) :
    sort key' (xs.map g) = (sort key xs).map g := by
  have hinsert (k : SortKey) (x : γ) (ps : List (SortKey × γ)) :
      sort.insert (k, g x) (ps.map (Prod.map id g)) =
        (sort.insert (k, x) ps).map (Prod.map id g) := by
    induction ps with
    | nil => rfl
    | cons p ps ih =>
      rw [List.map_cons, sort.insert, sort.insert, ih, apply_ite (List.map (Prod.map id g))]
      rfl
  have hfold (xs : List γ) : ((xs.map g).map fun x => (key' x, x)).foldr sort.insert [] =
      ((xs.map fun x => (key x, x)).foldr sort.insert []).map (Prod.map id g) := by
    induction xs with
    | nil => rfl
    | cons x xs ih =>
      rw [List.map_cons, List.map_cons, List.foldr_cons, ih, hkey, hinsert]
      rfl
  rw [sort, sort, hfold, List.map_map, List.map_map]
  rfl

variable [Scalar α] [NumberText α] [Scalar β] [NumberText β] {f : α → β} (hf : Scalar.Faithful f)

include hf

omit [NumberText α] [NumberText β] hf in
theorem filter_map_of {γ δ : Type} {g : γ → δ} {p : γ → Bool} {q : δ → Bool}
    (h : ∀ x, q (g x) = p x) (xs : List γ) : (xs.map g).filter q = (xs.filter p).map g := by
  rw [List.filter_map]
  exact congrArg (List.map g ∘ (xs.filter ·)) (funext h)

namespace Term

theorem beq_factors_map (fs gs : List (Expr α)) :
    (fs.map (Expr.map f) == gs.map (Expr.map f)) = (fs == gs) := by
  induction fs generalizing gs with
  | nil => cases gs <;> rfl
  | cons t fs ih =>
    cases gs with
    | nil       => rfl
    | cons s gs =>
      simp only [List.map_cons, List.cons_beq_cons, Expr.same_map hf, ih]

theorem merge_map (u : Term α) (us : List (Term α)) :
    merge (u.map f) (us.map (map f)) = (merge u us).map (map f) := by
  induction us with
  | nil => rfl
  | cons v us ih =>
    have hbeq := beq_factors_map hf v.factors u.factors
    rw [List.map_cons, merge, merge, ih, apply_ite (List.map (map f)), List.map_cons, List.map_cons]
    simp only [map, hbeq, hf.add]

theorem sumOf_map (terms : List (Term α)) : sumOf (terms.map (map f)) = (sumOf terms).map f := by
  have hneg (u : Term α) : Term.mk (-f u.coefficient) (u.factors.map (Expr.map f)) =
      (Term.mk (-u.coefficient) u.factors).map f := by
    rw [map, hf.neg]
  have happend (left : Expr α) (u : Term α) :
      sumOf.append (left.map f) (u.map f) = (sumOf.append left u).map f := by
    simp only [sumOf.append, apply_ite (Expr.map f), Expr.map, ← toExpr_map hf, ← hneg,
      ← hf.lt, hf.zero]
    rfl
  have hfold (left : Expr α) (us : List (Term α)) :
      (us.map (map f)).foldl sumOf.append (left.map f) = (us.foldl sumOf.append left).map f := by
    induction us generalizing left with
    | nil          => rfl
    | cons u us ih => rw [List.map_cons, List.foldl_cons, List.foldl_cons, happend, ih]
  unfold sumOf
  rw [SortKey.sort_map (sortKey_map hf)]
  cases SortKey.sort sortKey terms with
  | nil       => exact congrArg Expr.number hf.zero.symm
  | cons u us =>
    show (us.map (map f)).foldl sumOf.append (u.map f).toExpr = _
    rw [toExpr_map hf, hfold]

end Term

namespace Power

theorem ofExpr_map (t : Expr α) : ofExpr (t.map f) = (ofExpr t).map f := by
  have hone (a : Expr β) : Power.mk a 1 = ⟨a, f 1⟩ := congrArg (Power.mk a) hf.one.symm
  cases t with
  | binary op a b =>
    cases op with
    | pow =>
      cases b with
      | number x => rfl
      | _        => exact hone _
    | _ => exact hone _
  | _ => exact hone _

theorem toExpr_map (p : Power α) : (p.map f).toExpr = p.toExpr.map f := by
  simp only [map, toExpr, ← hf.one, hf.beq, apply_ite (Expr.map f)]
  rfl

theorem merge_map (p : Power α) (ps : List (Power α)) :
    merge (p.map f) (ps.map (map f)) = (merge p ps).map (map f) := by
  induction ps with
  | nil => rfl
  | cons q ps ih =>
    rw [List.map_cons, merge, merge, ih, apply_ite (List.map (map f)), List.map_cons, List.map_cons]
    simp only [map, Expr.same_map hf, hf.add]

theorem group_map (fs : List (Expr α)) :
    group (fs.map (Expr.map f)) = (group fs).map (Expr.map f) := by
  have hmerge (ps : List (Power α)) (fs : List (Expr α)) :
      mergeAll (ps.map (map f)) (fs.map (Expr.map f)) = (mergeAll ps fs).map (map f) := by
    induction fs generalizing ps with
    | nil          => rfl
    | cons g fs ih =>
      unfold mergeAll at ih ⊢
      rw [List.map_cons, List.foldl_cons, List.foldl_cons, ofExpr_map hf, merge_map hf, ih]
  have hnonzero (ps : List (Power α)) : nonzero (ps.map (map f)) = (nonzero ps).map (map f) := by
    refine filter_map_of (fun p => ?_) ps
    simp only [map, ← hf.zero, hf.beq]
  have htoExpr (ps : List (Power α)) :
      (ps.map (map f)).map toExpr = (ps.map toExpr).map (Expr.map f) := by
    simp only [List.map_map, Function.comp_def, toExpr_map hf]
  have hkey (t : Expr α) : SortKey.mk (t.map f).rank (t.map f).render = ⟨t.rank, t.render⟩ := by
    rw [Expr.rank_map, Expr.render_map hf]
  have hempty := hmerge [] fs
  rw [List.map_nil] at hempty
  rw [group_eq, group_eq, hempty, hnonzero, htoExpr, SortKey.sort_map hkey]

end Power

namespace Expr

theorem apply_map (op : Operator) (x y : α) : op.apply (f x) (f y) = f (op.apply x y) := by
  cases op with
  | add => exact (hf.add x y).symm
  | sub => exact (hf.sub x y).symm
  | mul => exact (hf.mul x y).symm
  | div => exact (hf.div x y).symm
  | pow => exact (hf.pow x y).symm

theorem fold?_map (op : Operator) (a b : Expr α) :
    fold? op (a.map f) (b.map f) = (fold? op a b).map (map f) := by
  cases a with
  | number x =>
    cases b with
    | number y =>
      simp only [map, fold?, apply_map hf, hf.isFinite]
      split <;> rfl
    | _ => rfl
  | _ => rfl

theorem quotient_map (a b : Expr α) : quotient (a.map f) (b.map f) = (quotient a b).map f := by
  have hzero : number (0 : β) = (number (0 : α)).map f := congrArg number hf.zero.symm
  have hone : number (1 : β) = (number (1 : α)).map f := congrArg number hf.one.symm
  simp only [quotient, fold?_map hf, isNumber_zero_map hf, isNumber_one_map hf, same_map hf,
    number?_map, Option.isNone_map, hzero, hone]
  rw [← Option.getD_map (f := map f)]
  simp only [apply_ite (map f)]
  rfl

theorem power_map (a b : Expr α) : power (a.map f) (b.map f) = (power a b).map f := by
  have hone : number (1 : β) = (number (1 : α)).map f := congrArg number hf.one.symm
  simp only [power, fold?_map hf, isNumber_zero_map hf, isNumber_one_map hf, hone,
    apply_ite (map f)]
  rw [← Option.getD_map (f := map f)]
  rfl

theorem application_map (g : Elementary) (args : List (Expr α)) :
    application g (args.map (map f)) = (application g args).map f := by
  have hcall (args : List (Expr α)) : call g (args.map (map f)) = (call g args).map f := by
    rw [map, mapAll_eq]
  have hmany {γ : Type} [Scalar γ] (a b : Expr γ) (args : List (Expr γ)) :
      application g (a :: b :: args) = call g (a :: b :: args) := by
    cases a <;> rfl
  cases args with
  | nil => rfl
  | cons a args =>
    cases args with
    | cons b args =>
      rw [List.map_cons, List.map_cons, hmany, hmany, ← List.map_cons, ← List.map_cons, hcall]
    | nil =>
      cases a with
      | number x =>
        simp only [List.map, map, application, ← hf.elementary, hf.isFinite, apply_ite (map f)]
        rfl
      | _ => exact hcall [_]

variable {p : Expr α → Metered α (Expr α)} {q : Expr β → Metered β (Expr β)}

theorem mirrors_collect (scale : α) (t : Expr α) (terms : List (Term α)) :
    Mirrors (List.map (Term.map f)) (collect scale t terms)
      (collect (f scale) (t.map f) (terms.map (Term.map f))) := by
  induction scale, t using scaledTerms_induct generalizing terms with
  | add scale a b iha ihb =>
    rw [map, collect, collect]
    exact (Mirrors.charge 1).bind fun _ => (iha terms).bind ihb
  | sub scale a b iha ihb =>
    rw [map, collect, collect, ← hf.neg]
    exact (Mirrors.charge 1).bind fun _ => (iha terms).bind ihb
  | scaled scale t s hs ih =>
    have hs' : (t.map f).scaledSum? = some (s.map f) := by rw [scaledSum?_map, hs]; rfl
    rw [collect_of_some hs, collect_of_some hs', coefficient_map hf, ← hf.mul]
    exact (Mirrors.charge 1).bind fun _ => ih terms
  | term scale t hs ht =>
    have hs' : (t.map f).scaledSum? = none := by rw [scaledSum?_map, hs]; rfl
    have ht' : ¬(t.map f).isSum := by rwa [isSum_map]
    rw [collect_of_none hs ht, collect_of_none hs' ht', coefficient_map hf, ← hf.mul, factors_map]
    refine (Mirrors.charge 1).bind fun _ => ?_
    have hmerge := Term.merge_map hf ⟨scale * t.coefficient, t.factors⟩ terms
    exact .of_eq hmerge

section Rounds

variable (hp : ∀ t, Mirrors (map f) (p t) (q (t.map f)))

include hp

theorem mirrors_settle {m n : Nat} (hmn : m ≤ n) (terms : List (Term α)) :
    Mirrors (List.map (Term.map f)) (settle p n terms)
      (settle q m (terms.map (Term.map f))) := by
  induction m generalizing n terms with
  | zero => exact .exhausted _
  | succ m ih =>
    obtain ⟨n, rfl⟩ := Nat.exists_eq_add_one.mpr (Nat.zero_lt_of_lt hmn)
    have hnonzero : (terms.map (Term.map f)).filter (fun t => !(t.coefficient == 0)) =
        (terms.filter fun t => !(t.coefficient == 0)).map (Term.map f) := by
      refine filter_map_of (fun u => ?_) terms
      simp only [Term.map, ← hf.zero, hf.beq]
    have hpartition (ts : List (Term α)) : (ts.map (Term.map f)).partition Term.scalesSum =
        ((ts.partition Term.scalesSum).1.map (Term.map f),
          (ts.partition Term.scalesSum).2.map (Term.map f)) := by
      simp only [List.partition_eq_filter_filter, Prod.mk.injEq]
      refine ⟨filter_map_of (Term.scalesSum_map hf) ts, filter_map_of (fun u => ?_) ts⟩
      exact congrArg not (Term.scalesSum_map hf u)
    rw [settle, settle, hnonzero, hpartition]
    generalize (terms.filter fun t => !(t.coefficient == 0)).partition Term.scalesSum = parts
    obtain ⟨scaled, kept⟩ := parts
    simp only [List.isEmpty_map]
    split
    case isTrue => exact .pure kept
    case isFalse =>
      have hproduct (u : Term α) := Term.toExpr_map hf u ▸ hp u.toExpr
      refine (Mirrors.mapM (f := Term.map f) (m := fun u => q u.toExpr) hproduct scaled).bind
        fun products => ?_
      rw [← List.map_reverse]
      refine (Mirrors.foldlM (fun ts t => ?_) products.reverse kept).bind
        (ih (Nat.le_of_succ_le_succ hmn))
      exact hf.one ▸ mirrors_collect hf 1 t ts

theorem mirrors_sumWith {m n : Nat} (hmn : m ≤ n) (addends : List (α × Expr α)) :
    Mirrors (map f) (sumWith p n addends) (sumWith q m (addends.map (Prod.map f (map f)))) := by
  refine (Mirrors.foldlM (f := Prod.map f (map f)) (g := List.map (Term.map f))
    (fun ts s => mirrors_collect hf s.1 s.2 ts) addends []).bind fun terms => ?_
  refine (mirrors_settle hf hp hmn terms).bind fun terms => ?_
  rw [List.length_map, Term.sumOf_map hf]
  exact (Mirrors.checkChain terms.length).bind fun _ => .pure (Term.sumOf terms)

end Rounds

-- An addend with the scale one.
theorem map_addend_one (t : Expr α) :
    [(1, t.map f)] = [((1 : α), t)].map (Prod.map f (map f)) := by
  rw [List.map_singleton, Prod.map_apply, hf.one]

theorem mirrors_spread {s : List (α × Expr α) → Metered α (Expr α)}
    {s' : List (β × Expr β) → Metered β (Expr β)}
    (hs : ∀ addends, Mirrors (map f) (s addends) (s' (addends.map (Prod.map f (map f)))))
    (u : Term α) : Mirrors (Term.map f) (spread s u) (spread s' (u.map f)) := by
  have hspan (fs : List (Expr α)) : (fs.map (map f)).span (!·.isSum) =
      ((fs.span (!·.isSum)).1.map (map f), (fs.span (!·.isSum)).2.map (map f)) := by
    simp only [List.span_eq_takeWhile_dropWhile, List.takeWhile_map, List.dropWhile_map,
      Function.comp_def, isSum_map]
  have hfactors : (u.map f).factors.span (!·.isSum) = _ := hspan u.factors
  unfold spread
  rw [Term.scalesSum_map hf, hfactors]
  generalize u.factors.span (!·.isSum) = parts
  obtain ⟨before, rest⟩ := parts
  split
  case isFalse => exact .pure u
  case isTrue =>
    cases rest with
    | nil => exact .pure u
    | cons t after =>
      have hmul := hs [(1, .mul (.number u.coefficient) t)]
      rw [← map_addend_one hf] at hmul
      refine hmul.bind fun r => ?_
      have hgroup : Term.mk 1 (Power.group (before.map (map f) ++ r.map f :: after.map (map f))) =
          (Term.mk 1 (Power.group (before ++ r :: after))).map f := by
        rw [← List.map_cons, ← List.map_append, Power.group_map hf, Term.map, hf.one]
      exact .of_eq hgroup

-- Under wider limits there are more rounds, but the rounds under narrower ones are used up only
-- together with the operations.
theorem mirrors_productWithin {m n : Nat} (hmn : m ≤ n) (t : Expr α) :
    Mirrors (map f) (productWithin n t) (productWithin m (t.map f)) := by
  induction m generalizing n t with
  | zero => exact .exhausted _
  | succ m ih =>
    obtain ⟨n, rfl⟩ := Nat.exists_eq_add_one.mpr (Nat.zero_lt_of_lt hmn)
    have hle := Nat.le_of_succ_le_succ hmn
    have hsum := mirrors_sumWith hf (ih hle) hle
    have hgroup : Term.mk (t.map f).coefficient (Power.group (t.map f).factors) =
        (Term.mk t.coefficient (Power.group t.factors)).map f := by
      rw [coefficient_map hf, factors_map, Power.group_map hf, Term.map]
    have hzero : ((t.map f).coefficient == 0) = (t.coefficient == 0) := by
      rw [coefficient_map hf, ← hf.zero, hf.beq]
    rw [productWithin, productWithin, hgroup, hzero, factors_map, List.length_map]
    refine (Mirrors.charge _).bind fun _ => ?_
    split
    case isTrue  => exact .of_eq (congrArg number hf.zero.symm)
    case isFalse =>
      refine (mirrors_spread hf hsum _).bind fun u => ?_
      have hfactors : (u.map f).factors = u.factors.map (map f) := rfl
      rw [Term.toExpr_map hf, hfactors, List.length_map]
      refine (Mirrors.checkChain _).bind fun _ => ?_
      generalize u.factors = fs
      cases fs with
      | nil => exact .pure u.toExpr
      | cons s fs =>
        cases fs with
        | cons => exact .pure u.toExpr
        | nil  =>
          have hone := hsum [(1, u.toExpr)]
          rw [← map_addend_one hf] at hone
          simp only [List.map_singleton, isSum_map]
          split
          case isTrue  => exact hone
          case isFalse => exact .pure u.toExpr

theorem mirrors_product (t : Expr α) : Mirrors (map f) (product t) (product (t.map f)) :=
  .read_bind fun hl => mirrors_productWithin hf (Nat.succ_le_succ hl.2) t

theorem mirrors_sum (addends : List (α × Expr α)) :
    Mirrors (map f) (sum addends) (sum (addends.map (Prod.map f (map f)))) :=
  .read_bind fun hl =>
    have hle := Nat.succ_le_succ hl.2
    mirrors_sumWith hf (mirrors_productWithin hf hle) hle addends

theorem mirrors_sum_singleton (t : Expr α) :
    Mirrors (map f) (sum [(1, t)]) (sum [(1, t.map f)]) := by
  rw [map_addend_one hf]
  exact mirrors_sum hf _

omit hf in
theorem mirrors_canonicalAllAt {ts : List (Expr α)}
    (hts : ∀ t ∈ ts, ∀ d, Mirrors (map f) (canonicalAt t d) (canonicalAt (t.map f) d)) (d : Nat) :
    Mirrors (List.map (map f)) (canonicalAllAt ts d) (canonicalAllAt (mapAll f ts) d) := by
  induction ts with
  | nil =>
    rw [mapAll, canonicalAllAt, canonicalAllAt]
    exact .pure []
  | cons t ts ih =>
    obtain ⟨ht, hts⟩ := List.forall_mem_cons.mp hts
    rw [mapAll, canonicalAllAt, canonicalAllAt]
    exact (ht d).bind fun r => (ih hts).bind fun rs => .pure (r :: rs)

theorem mirrors_canonicalAt (t : Expr α) (d : Nat) :
    Mirrors (map f) (t.canonicalAt d) ((t.map f).canonicalAt d) := by
  induction t generalizing d with
  | number x =>
    rw [map, canonicalAt, canonicalAt]
    exact (Mirrors.step d).bind fun _ => .pure (number x)
  | constant c =>
    rw [map, canonicalAt, canonicalAt]
    exact (Mirrors.step d).bind fun _ => .pure (constant c)
  | var name =>
    rw [map, canonicalAt, canonicalAt]
    exact (Mirrors.step d).bind fun _ => .pure (var name)
  | neg a ih =>
    rw [map, canonicalAt, canonicalAt]
    exact (Mirrors.step d).bind fun _ => (ih _).bind fun a => mirrors_product hf (neg a)
  | binary op a b iha ihb =>
    rw [map, canonicalAt, canonicalAt]
    refine (Mirrors.step d).bind fun _ => (iha _).bind fun a => (ihb _).bind fun b => ?_
    cases op with
    | add => exact mirrors_sum_singleton hf (add a b)
    | sub => exact mirrors_sum_singleton hf (sub a b)
    | mul => exact mirrors_product hf (mul a b)
    | div => exact .of_eq (quotient_map hf a b)
    | pow => exact .of_eq (power_map hf a b)
  | call g args ih =>
    rw [map, canonicalAt, canonicalAt]
    exact (Mirrors.step d).bind fun _ =>
      (mirrors_canonicalAllAt ih _).lift (application_map hf g)

-- The tolerances of a configuration are of no concern to rewriting.
theorem mirrored_canonical {config : Config α} {config' : Config β}
    (hl : config'.toLimits ≤ config.toLimits) (t : Expr α) :
    Mirrored config'.toLimits (map f) (t.canonical config) ((t.map f).canonical config') :=
  (mirrors_canonicalAt hf t 1).run hl

end Expr

end InfixAlgebra
