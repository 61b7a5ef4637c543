import InfixAlgebra.Proofs.Canonical.Running

namespace InfixAlgebra

open Metered

variable {α : Type} [Scalar α]

-- The terms that `scale` times an expression adds to a sum, before like ones are merged.
def Expr.scaledTerms (scale : α) (t : Expr α) : List (Term α) :=
  match t with
  | .add a b => scaledTerms scale a ++ scaledTerms scale b
  | .sub a b => scaledTerms scale a ++ scaledTerms (-scale) b
  | t =>
    match _ : t.scaledSum? with
    | some s => scaledTerms (scale * t.coefficient) s
    | none   => [⟨scale * t.coefficient, t.factors⟩]
termination_by t.size
decreasing_by
  all_goals first
    | exact size_lt_of_scaledSum? (by assumption)
    | simp only [size]; omega

namespace Expr

variable {t s : Expr α} {scale : α}

omit [Scalar α] in
theorem exists_of_isSum (h : t.isSum) :
    ∃ op a b, t = .binary op a b ∧ (op = .add ∨ op = .sub) := by
  unfold isSum at h
  split at h
  case h_1 a b => exact ⟨_, a, b, rfl, .inl rfl⟩
  case h_2 a b => exact ⟨_, a, b, rfl, .inr rfl⟩
  case h_3     => cases h

omit [Scalar α] in
theorem factors_of_isSum (h : t.isSum) : t.factors = [t] := by
  have ⟨op, a, b, heq, ho⟩ := exists_of_isSum h
  subst heq
  rcases ho with rfl | rfl <;> rfl

omit [Scalar α] in
theorem not_isSum_of_scaledSum? (h : t.scaledSum? = some s) : ¬t.isSum := by
  intro ht
  have ⟨op, a, b, heq, ho⟩ := exists_of_isSum ht
  subst heq
  rcases ho with rfl | rfl <;> cases h

omit [Scalar α] in
-- An expression is a scaled sum if the sum is its only factor.
theorem factors_of_scaledSum? (h : t.scaledSum? = some s) : t.factors = [s] ∧ s.isSum := by
  have honly (fs : List (Expr α)) (h : scaledSum?.only? fs = some s) : fs = [s] ∧ s.isSum := by
    unfold scaledSum?.only? at h
    split at h
    case h_1 =>
      split at h
      case isTrue hs =>
        cases h
        exact ⟨rfl, hs⟩
      case isFalse => cases h
    case h_2 => cases h
  unfold scaledSum? at h
  split at h
  case h_1 a   => exact honly a.factors h
  case h_2 a b => exact honly (a.factors ++ b.factors) h
  case h_3     => cases h

theorem scaledTerms_of_not_isSum (ht : ¬t.isSum) :
    t.scaledTerms scale =
      match _ : t.scaledSum? with
      | some s => s.scaledTerms (scale * t.coefficient)
      | none   => [⟨scale * t.coefficient, t.factors⟩] :=
  scaledTerms.eq_3 scale t (fun _ _ h => ht (h ▸ rfl)) (fun _ _ h => ht (h ▸ rfl))

theorem scaledTerms_of_some (h : t.scaledSum? = some s) :
    t.scaledTerms scale = s.scaledTerms (scale * t.coefficient) := by
  rw [scaledTerms_of_not_isSum (not_isSum_of_scaledSum? h)]
  split
  case h_1 hs =>
    rw [h] at hs
    cases hs
    rfl
  case h_2 hs =>
    rw [h] at hs
    cases hs

theorem scaledTerms_of_none (h : t.scaledSum? = none) (ht : ¬t.isSum) :
    t.scaledTerms scale = [⟨scale * t.coefficient, t.factors⟩] := by
  rw [scaledTerms_of_not_isSum ht]
  split
  case h_1 hs =>
    rw [h] at hs
    cases hs
  case h_2 => rfl

theorem scaledTerms_of_factors_ne (h : ∀ s, t.factors = [s] → ¬s.isSum) :
    t.scaledTerms scale = [⟨scale * t.coefficient, t.factors⟩] := by
  refine scaledTerms_of_none ?_ fun ht => h t (factors_of_isSum ht) ht
  rw [Option.eq_none_iff_forall_ne_some]
  intro s hs
  have ⟨hf, hsum⟩ := factors_of_scaledSum? hs
  exact h s hf hsum

-- Sums are taken apart, scaled sums as well, down to what is a single term.
theorem scaledTerms_induct {motive : α → Expr α → Prop}
    (add : ∀ scale a b, motive scale a → motive scale b → motive scale (.add a b))
    (sub : ∀ scale a b, motive scale a → motive (-scale) b → motive scale (.sub a b))
    (scaled : ∀ scale t s, t.scaledSum? = some s → motive (scale * t.coefficient) s →
      motive scale t)
    (term : ∀ scale t, t.scaledSum? = none → ¬t.isSum → motive scale t)
    (scale : α) (t : Expr α) : motive scale t := by
  generalize hn : t.size = n
  induction n using Nat.strong_induction_on generalizing scale t with
  | h n ih =>
    subst hn
    by_cases ht : t.isSum
    case pos =>
      obtain ⟨op, a, b, rfl, ho⟩ := exists_of_isSum ht
      have ha (x : α) : motive x a := ih a.size (by simp only [size]; omega) x a rfl
      have hb (x : α) : motive x b := ih b.size (by simp only [size]; omega) x b rfl
      cases ho with
      | inl h => exact h ▸ add scale a b (ha scale) (hb scale)
      | inr h => exact h ▸ sub scale a b (ha scale) (hb (-scale))
    case neg =>
      cases h : t.scaledSum? with
      | some s =>
        exact scaled scale t s h (ih s.size (size_lt_of_scaledSum? h) (scale * t.coefficient) s rfl)
      | none => exact term scale t h ht

end Expr

namespace Term

variable [NumberText α]

def mergeAll (terms news : List (Term α)) : List (Term α) :=
  news.foldl (fun ts t => merge t ts) terms

omit [NumberText α] in
theorem mergeAll_append (terms news more : List (Term α)) :
    mergeAll terms (news ++ more) = mergeAll (mergeAll terms news) more :=
  List.foldl_append

omit [NumberText α] in
theorem foldl_mergeAll {β : Type} (f : β → List (Term α)) (terms : List (Term α)) (xs : List β) :
    xs.foldl (fun ts x => mergeAll ts (f x)) terms = mergeAll terms (xs.flatMap f) := by
  induction xs generalizing terms with
  | nil          => rfl
  | cons x xs ih => rw [List.foldl_cons, ih, List.flatMap_cons, mergeAll_append]

def nonzero (terms : List (Term α)) : List (Term α) :=
  terms.filter fun t => !(t.coefficient == 0)

-- The terms whose coefficient has to go into a sum, and the others.

def scaled (terms : List (Term α)) : List (Term α) :=
  (nonzero terms).filter scalesSum

def kept (terms : List (Term α)) : List (Term α) :=
  (nonzero terms).filter fun t => !t.scalesSum

inductive Settles (product : Expr α → Expr α → Prop) : List (Term α) → List (Term α) → Prop
  | done {terms} : scaled terms = [] → Settles product terms (kept terms)
  | round {terms products result} :
    scaled terms ≠ [] → List.Forall₂ (fun t r => product t.toExpr r) (scaled terms) products →
    Settles product (mergeAll (kept terms) (products.reverse.flatMap (Expr.scaledTerms 1))) result →
    Settles product terms result

omit [NumberText α] in
theorem Settles.mono {P Q : Expr α → Expr α → Prop} {terms result : List (Term α)}
    (h : Settles P terms result) (hPQ : ∀ t r, P t r → Q t r) : Settles Q terms result := by
  induction h with
  | done hnil          => exact .done hnil
  | round hne hp _ ih  => exact .round hne (hp.imp fun _ _ => hPQ _ _) ih

end Term

namespace Power

def mergeAll (powers : List (Power α)) (fs : List (Expr α)) : List (Power α) :=
  fs.foldl (fun ps f => merge (ofExpr f) ps) powers

def nonzero (powers : List (Power α)) : List (Power α) :=
  powers.filter fun p => !(p.exponent == 0)

theorem group_eq [NumberText α] (fs : List (Expr α)) :
    group fs = SortKey.sort (fun t : Expr α => ⟨t.rank, t.render⟩)
      ((nonzero (mergeAll [] fs)).map toExpr) :=
  rfl

end Power

namespace Expr

variable [NumberText α] {t r s a b : Expr α} {scale : α} {terms : List (Term α)} {n : Nat}
  {p : Expr α → Metered α (Expr α)}

def scaledTermsOfAll (addends : List (α × Expr α)) : List (Term α) :=
  addends.flatMap fun (scale, t) => t.scaledTerms scale

omit [NumberText α] in
theorem collect_of_not_isSum (ht : ¬t.isSum) :
    collect scale t terms = (do
      charge 1
      match _ : t.scaledSum? with
      | some s => collect (scale * t.coefficient) s terms
      | none   => return Term.merge ⟨scale * t.coefficient, t.factors⟩ terms) :=
  collect.eq_3 scale t terms (fun _ _ h => ht (h ▸ rfl)) (fun _ _ h => ht (h ▸ rfl))

omit [NumberText α] in
theorem collect_of_some (h : t.scaledSum? = some s) :
    collect scale t terms = (do charge 1; collect (scale * t.coefficient) s terms) := by
  rw [collect_of_not_isSum (not_isSum_of_scaledSum? h)]
  split
  case h_1 hs =>
    rw [h] at hs
    cases hs
    rfl
  case h_2 hs =>
    rw [h] at hs
    cases hs

omit [NumberText α] in
theorem collect_of_none (h : t.scaledSum? = none) (ht : ¬t.isSum) :
    collect scale t terms =
      (do charge 1; return Term.merge ⟨scale * t.coefficient, t.factors⟩ terms) := by
  rw [collect_of_not_isSum ht]
  split
  case h_1 hs =>
    rw [h] at hs
    cases hs
  case h_2 => rfl

omit [NumberText α] in
theorem eq_of_gives_collect {result : List (Term α)} (h : Gives (collect scale t terms) result) :
    result = Term.mergeAll terms (t.scaledTerms scale) := by
  induction scale, t using scaledTerms_induct generalizing terms result with
  | add scale a b iha ihb =>
    rw [collect] at h
    obtain ⟨ts, ha, hb⟩ := h.of_bind_unit.exists_of_bind
    rw [scaledTerms, Term.mergeAll_append, ihb hb, iha ha]
  | sub scale a b iha ihb =>
    rw [collect] at h
    obtain ⟨ts, ha, hb⟩ := h.of_bind_unit.exists_of_bind
    rw [scaledTerms, Term.mergeAll_append, ihb hb, iha ha]
  | scaled scale t s hs ih =>
    rw [collect_of_some hs] at h
    rw [scaledTerms_of_some hs, ih h.of_bind_unit]
  | term scale t hs ht =>
    rw [collect_of_none hs ht] at h
    rw [scaledTerms_of_none hs ht, h.of_bind_unit.of_pure]
    rfl

omit [NumberText α] in
theorem eq_of_gives_foldlM_collect {β : Type} {scale : β → α} {expr : β → Expr α} {xs : List β}
    {result : List (Term α)}
    (h : Gives (xs.foldlM (fun ts x => collect (scale x) (expr x) ts) terms) result) :
    result = Term.mergeAll terms (xs.flatMap fun x => (expr x).scaledTerms (scale x)) := by
  rw [← Term.foldl_mergeAll]
  exact h.of_foldlM fun _ _ _ => eq_of_gives_collect

-- The two ways in which a round may go.

omit [NumberText α] in
theorem partition_nonzero :
    (terms.filter fun t => !(t.coefficient == 0)).partition Term.scalesSum =
      (Term.scaled terms, Term.kept terms) :=
  List.partition_eq_filter_filter ..

omit [NumberText α] in
theorem settle_of_eq_nil (h : Term.scaled terms = []) (product : Expr α → Metered α (Expr α))
    (n : Nat) : settle product (n + 1) terms = pure (Term.kept terms) := by
  rw [settle, partition_nonzero, h]
  rfl

omit [NumberText α] in
theorem settle_of_ne_nil (h : Term.scaled terms ≠ []) (product : Expr α → Metered α (Expr α))
    (n : Nat) :
    settle product (n + 1) terms = (do
      let products ← (Term.scaled terms).mapM fun u => product u.toExpr
      let terms ← products.reverse.foldlM (fun ts t => collect 1 t ts) (Term.kept terms)
      settle product n terms) := by
  rw [settle, partition_nonzero]
  exact if_neg (mt List.isEmpty_iff.mp h)

omit [NumberText α] in
theorem settles_of_gives_settle {result : List (Term α)} (h : Gives (settle p n terms) result) :
    Term.Settles (fun t r => Gives (p t) r) terms result := by
  induction n generalizing terms with
  | zero      => exact absurd h not_gives_exhausted
  | succ n ih =>
    by_cases hnil : Term.scaled terms = []
    case pos =>
      rw [settle_of_eq_nil hnil] at h
      rw [h.of_pure]
      exact .done hnil
    case neg =>
      rw [settle_of_ne_nil hnil] at h
      have ⟨products, hp, h₁⟩ := h.exists_of_bind
      have ⟨terms', hc, h₂⟩ := h₁.exists_of_bind
      exact .round hnil hp.of_mapM (eq_of_gives_foldlM_collect hc ▸ ih h₂)

-- What `product` and `sum` relate, seen from outside of their mutual recursion.

def SumsTo (product : Expr α → Expr α → Prop) (addends : List (α × Expr α)) (r : Expr α) : Prop :=
  ∃ terms, Term.Settles product (Term.mergeAll [] (scaledTermsOfAll addends)) terms ∧
    r = Term.sumOf terms

theorem sumsTo_of_gives_sumWith {addends : List (α × Expr α)}
    (h : Gives (sumWith p n addends) r) : SumsTo (fun t r => Gives (p t) r) addends r := by
  have ⟨terms, hc, h₁⟩ := h.exists_of_bind
  have ⟨terms', hs, h₂⟩ := h₁.exists_of_bind
  have hterms : terms = Term.mergeAll [] (scaledTermsOfAll addends) := eq_of_gives_foldlM_collect hc
  exact ⟨terms', hterms ▸ settles_of_gives_settle hs, h₂.of_bind_unit.of_pure⟩

-- A coefficient goes into the first sum among the factors, unless it is one or stands alone.
inductive Spreads (sum : List (α × Expr α) → Expr α → Prop) : Term α → Term α → Prop
  | none {u : Term α} : ¬u.scalesSum → Spreads sum u u
  | into {c : α} {before after : List (Expr α)} {s r : Expr α} :
    (Term.mk c (before ++ s :: after)).scalesSum → (∀ f ∈ before, ¬f.isSum) → s.isSum →
    sum [(1, .mul (.number c) s)] r →
    Spreads sum ⟨c, before ++ s :: after⟩ ⟨1, Power.group (before ++ r :: after)⟩

theorem spreads_of_gives_spread {sum : List (α × Expr α) → Metered α (Expr α)} {u u' : Term α}
    (h : Gives (spread sum u) u') : Spreads (fun addends r => Gives (sum addends) r) u u' := by
  unfold spread at h
  split at h
  case isFalse hs =>
    rw [h.of_pure]
    exact .none hs
  case isTrue hs =>
    obtain ⟨c, fs⟩ := u
    rw [List.span_eq_takeWhile_dropWhile] at h
    have hsplit := List.takeWhile_append_dropWhile (p := fun f : Expr α => !f.isSum) (l := fs)
    have hbefore : ∀ f ∈ fs.takeWhile (!·.isSum), ¬f.isSum := by
      intro f hf
      simpa using List.mem_takeWhile_imp hf
    have hafter : ∀ f ∈ (fs.dropWhile (!·.isSum)).head?, f.isSum := by
      intro f hf
      have hhead := List.head?_dropWhile_not (fun f : Expr α => !f.isSum) fs
      rw [Option.mem_def.mp hf] at hhead
      simpa using hhead
    have hany : ∃ f ∈ fs, f.isSum := by
      simp only [Term.scalesSum, Bool.and_eq_true, List.any_eq_true] at hs
      exact hs.2
    cases hrest : fs.dropWhile (!·.isSum) with
    | nil =>
      rw [hrest, List.append_nil] at hsplit
      have ⟨f, hf, hsum⟩ := hany
      rw [← hsplit] at hf
      exact absurd hsum (hbefore f hf)
    | cons s after =>
      rw [hrest] at h hsplit hafter
      have ⟨r, hr, hp⟩ := h.exists_of_bind
      rw [hp.of_pure]
      generalize fs.takeWhile (!·.isSum) = before at *
      subst hsplit
      exact .into hs hbefore (hafter s rfl) hr

inductive MultipliesTo (sum : List (α × Expr α) → Expr α → Prop) (t : Expr α) : Expr α → Prop
  | zero : t.coefficient == 0 → MultipliesTo sum t (.number 0)
  | sum {u : Term α} {s r : Expr α} :
    ¬(t.coefficient == 0) → Spreads sum ⟨t.coefficient, Power.group t.factors⟩ u →
    u.factors = [s] → s.isSum → sum [(1, u.toExpr)] r → MultipliesTo sum t r
  | term {u : Term α} :
    ¬(t.coefficient == 0) → Spreads sum ⟨t.coefficient, Power.group t.factors⟩ u →
    (∀ s, u.factors = [s] → ¬s.isSum) → MultipliesTo sum t u.toExpr

theorem multipliesTo_of_gives_productWithin (h : Gives (productWithin (n + 1) t) r) :
    MultipliesTo (fun addends r => Gives (sumWith (productWithin n) n addends) r) t r := by
  replace h := h.of_bind_unit
  split at h
  case isTrue hz =>
    rw [h.of_pure]
    exact .zero hz
  case isFalse hz =>
    have ⟨u, hs, h₁⟩ := h.exists_of_bind
    have hspread := spreads_of_gives_spread hs
    replace h₁ := h₁.of_bind_unit
    split at h₁
    case h_1 s hf =>
      split at h₁
      case isTrue hsum => exact .sum hz hspread hf hsum h₁
      case isFalse hsum =>
        rw [h₁.of_pure]
        refine .term hz hspread fun s' hf' => ?_
        rw [hf] at hf'
        cases hf'
        exact hsum
    case h_2 hne =>
      rw [h₁.of_pure]
      exact .term hz hspread fun s hf => absurd hf (hne s)

end Expr

end InfixAlgebra
