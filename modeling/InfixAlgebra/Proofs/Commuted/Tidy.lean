import InfixAlgebra.Proofs.Canonical.Induction
import InfixAlgebra.Proofs.Commuted.Total
import InfixAlgebra.Proofs.Normal.Idempotence
import InfixAlgebra.Proofs.Printer.Lines

namespace InfixAlgebra

open Merging Metered

namespace Expr

section Factors

variable {α : Type} {t f a b : Expr α} {fs : List (Expr α)}

structure TidyFactor (f : Expr α) : Prop where
  tidy      : f.Tidy
  no_number : f.number? = none

theorem number?_of_isAtom (h : f.isAtom) : f.number? = none := by
  cases f with
  | number x => cases h
  | _        => rfl

theorem Tidy.mul (ha : a.Tidy) (hb : b.Tidy) : (mul a b).Tidy :=
  .binary nofun ha hb

theorem Tidy.sum {op : Operator} (ho : op = .add ∨ op = .sub) (ha : a.Tidy) (hb : b.Tidy) :
    (Expr.binary op a b).Tidy := by
  rcases ho with rfl | rfl <;> exact .binary nofun ha hb

theorem Tidy.of_binary {op : Operator} (h : (Expr.binary op a b).Tidy) : a.Tidy ∧ b.Tidy := by
  cases h with
  | binary _ ha hb => exact ⟨ha, hb⟩

theorem Tidy.factor (h : t.Tidy) (hf : f ∈ t.factors) : f.TidyFactor := by
  refine ⟨?_, number?_of_isAtom (isAtom_of_mem_factors hf)⟩
  induction h with
  | number x      => cases hf
  | constant c    => exact List.mem_singleton.mp hf ▸ .constant c
  | var hname he  => exact List.mem_singleton.mp hf ▸ .var hname he
  | neg _ _ ih    => exact ih hf
  | call hargs    => exact List.mem_singleton.mp hf ▸ .call hargs
  | @binary op a b hop ha hb iha ihb =>
    cases op with
    | mul => exact (List.mem_append.mp hf).elim iha ihb
    | _   => exact List.mem_singleton.mp hf ▸ .binary hop ha hb

theorem Tidy.foldl_mul (ht : t.Tidy) (hfs : ∀ f ∈ fs, f.Tidy) : (fs.foldl Expr.mul t).Tidy := by
  induction fs generalizing t with
  | nil => exact ht
  | cons f fs ih =>
    have ⟨hf, hfs⟩ := List.forall_mem_cons.mp hfs
    exact ih (ht.mul hf) hfs

theorem number?_foldl_mul (ht : t.number? = none) : (fs.foldl Expr.mul t).number? = none := by
  induction fs generalizing t with
  | nil          => exact ht
  | cons f fs ih => exact ih rfl

end Factors

end Expr

variable {ops : Operations}

namespace Term

variable {u : Term (Total ops)} {terms news : List (Term (Total ops))}
  {fs : List (Expr (Total ops))}

def Tidy (u : Term (Total ops)) : Prop :=
  ∀ f ∈ u.factors, f.isAtom ∧ f.Tidy

theorem Tidy.tidyFactor (h : u.Tidy) : ∀ f ∈ u.factors, f.TidyFactor :=
  fun f hf => ⟨(h f hf).2, Expr.number?_of_isAtom (h f hf).1⟩

-- Only next to a coefficient of one a factor may be a number.
theorem tidy_toExpr_one (h : ∀ f ∈ fs, f.Tidy) : (mk (1 : Total ops) fs).toExpr.Tidy := by
  cases fs with
  | nil => exact .number 1
  | cons f fs =>
    have ⟨hf, hfs⟩ := List.forall_mem_cons.mp h
    rw [toExpr_one]
    exact hf.foldl_mul hfs

theorem tidy_toExpr (h : ∀ f ∈ u.factors, f.TidyFactor) : u.toExpr.Tidy := by
  obtain ⟨x, fs⟩ := u
  cases fs with
  | nil => exact .number x
  | cons f fs =>
    have ⟨hf, hfs⟩ := List.forall_mem_cons.mp h
    have hfs : ∀ f ∈ fs, f.Tidy := fun f hf => (hfs f hf).tidy
    by_cases hx : x == 0
    case pos =>
      simp only [Term.toExpr, if_pos hx]
      exact .number 0
    case neg =>
      have hwritten := written_toExpr (u := ⟨x, f :: fs⟩) hx
      generalize (mk x (f :: fs)).toExpr = t at hwritten
      cases hwritten with
      | one     => exact hf.tidy.foldl_mul hfs
      | neg_one => exact .neg (Expr.number?_foldl_mul hf.no_number) (hf.tidy.foldl_mul hfs)
      | number  => exact ((Expr.Tidy.number x).mul hf.tidy).foldl_mul hfs

theorem Tidy.toExpr (h : u.Tidy) : u.toExpr.Tidy :=
  tidy_toExpr h.tidyFactor

theorem tidy_scaledTerms {t : Expr (Total ops)} {scale : Total ops} (ht : t.Tidy) :
    ∀ u ∈ t.scaledTerms scale, u.Tidy := by
  induction scale, t using Expr.scaledTerms_induct with
  | add scale a b iha ihb =>
    have ⟨ha, hb⟩ := ht.of_binary
    rw [Expr.scaledTerms]
    exact List.forall_mem_append.mpr ⟨iha ha, ihb hb⟩
  | sub scale a b iha ihb =>
    have ⟨ha, hb⟩ := ht.of_binary
    rw [Expr.scaledTerms]
    exact List.forall_mem_append.mpr ⟨iha ha, ihb hb⟩
  | scaled scale t s hsum ih =>
    have hs : s ∈ t.factors := (Expr.factors_of_scaledSum? hsum).1 ▸ List.mem_singleton_self s
    rw [Expr.scaledTerms_of_some hsum]
    exact ih (ht.factor hs).tidy
  | term scale t hnone hsum =>
    rw [Expr.scaledTerms_of_none hnone hsum, List.forall_mem_singleton]
    exact fun f hf => ⟨Expr.isAtom_of_mem_factors hf, (ht.factor hf).tidy⟩

theorem tidy_mergeAll (h : ∀ u ∈ terms, u.Tidy) (hnews : ∀ u ∈ news, u.Tidy) :
    ∀ u ∈ mergeAll terms news, u.Tidy := by
  rw [mergeAll_eq]
  exact forall_addAll (fun _ _ _ hu _ => hu) h hnews

variable [NumberText (Total ops)]

theorem tidy_sumOf (h : ∀ u ∈ terms, u.Tidy) : (sumOf terms).Tidy := by
  have hsorted : ∀ u ∈ SortKey.sort sortKey terms, u.Tidy :=
    fun u hu => h u ((SortKey.perm_sort _ _).mem_iff.mp hu)
  have hall (us : List (Term (Total ops))) (hus : ∀ u ∈ us, u.Tidy) :
      ∀ {t : Expr (Total ops)}, t.Tidy → (us.foldl sumOf.append t).Tidy := by
    induction us with
    | nil => exact id
    | cons u us ih =>
      intro t ht
      have ⟨hu, hus⟩ := List.forall_mem_cons.mp hus
      refine ih hus ?_
      rw [sumOf.append]
      split
      case isTrue =>
        have hneg : Tidy ⟨-u.coefficient, u.factors⟩ := hu
        exact .binary nofun ht hneg.toExpr
      case isFalse => exact .binary nofun ht hu.toExpr
  unfold sumOf
  cases hs : SortKey.sort sortKey terms with
  | nil => exact .number 0
  | cons u us =>
    rw [hs] at hsorted
    have ⟨hu, hus⟩ := List.forall_mem_cons.mp hsorted
    exact hall us hus hu.toExpr

end Term

namespace Power

variable {p q : Power (Total ops)} {f r : Expr (Total ops)} {fs : List (Expr (Total ops))}

theorem tidyFactor_ofExpr (h : f.TidyFactor) : (ofExpr f).base.TidyFactor := by
  cases f.exists_of_exponent with
  | inl h' =>
    obtain ⟨a, x, rfl⟩ := h'
    cases h.tidy with
    | binary hop ha _ => exact ⟨ha, (hop rfl).resolve_right nofun⟩
  | inr h' => rwa [h']

structure Tidy (p : Power (Total ops)) : Prop where
  base     : p.base.Tidy
  exponent : p.base.number? ≠ none → p.exponent = 1

theorem tidy_of_base (h : p.base.TidyFactor) : p.Tidy :=
  ⟨h.tidy, fun hne => absurd h.no_number hne⟩

theorem tidy_ofExpr (h : f.Tidy) : (ofExpr f).Tidy := by
  by_cases hf : f.number? = none
  case pos => exact tidy_of_base (tidyFactor_ofExpr ⟨h, hf⟩)
  case neg =>
    cases f.exists_of_exponent with
    | inl h' =>
      obtain ⟨a, x, rfl⟩ := h'
      exact absurd rfl hf
    | inr h' => exact h' ▸ ⟨h, fun _ => rfl⟩

theorem Tidy.toExpr (h : p.Tidy) : p.toExpr.Tidy := by
  unfold Power.toExpr
  split
  case isTrue => exact h.base
  case isFalse hne =>
    refine .binary (fun _ => .inl ?_) h.base (.number _)
    by_contra hbase
    exact hne (Total.beq_iff.mpr (h.exponent hbase))

theorem tidyFactor_toExpr (h : p.base.TidyFactor) : p.toExpr.TidyFactor := by
  refine ⟨(tidy_of_base h).toExpr, ?_⟩
  unfold Power.toExpr
  split
  case isTrue  => exact h.no_number
  case isFalse => rfl

theorem base_eq_of_alike (h : merging.alike q p) : q.base = p.base :=
  Expr.eq_of_same Total.beq_iff.mp _ _ h

theorem tidyFactor_mergeAll (hfs : ∀ f ∈ fs, f.TidyFactor) :
    ∀ p ∈ mergeAll [] fs, p.base.TidyFactor := by
  rw [mergeAll_eq]
  refine forall_addAll (fun _ _ _ hq _ => hq) nofun fun p hp => ?_
  have ⟨f, hf, hfp⟩ := List.mem_map.mp hp
  exact hfp ▸ tidyFactor_ofExpr (hfs f hf)

variable [NumberText (Total ops)]

theorem exists_of_mem_group (h : f ∈ group fs) : ∃ p ∈ mergeAll [] fs, p.toExpr = f := by
  rw [group_eq, (SortKey.perm_sort _ _).mem_iff] at h
  have ⟨p, hp, hpf⟩ := List.mem_map.mp h
  exact ⟨p, List.mem_of_mem_filter hp, hpf⟩

theorem tidyFactor_group (hfs : ∀ f ∈ fs, f.TidyFactor) : ∀ f ∈ group fs, f.TidyFactor := by
  intro f hf
  have ⟨p, hp, hpf⟩ := exists_of_mem_group hf
  exact hpf ▸ tidyFactor_toExpr (tidyFactor_mergeAll hfs p hp)

-- One of the factors may be a number, which no other factor is merged with.
theorem tidy_group {before after : List (Expr (Total ops))}
    (hbefore : ∀ f ∈ before, f.TidyFactor) (hr : r.Tidy) (hafter : ∀ f ∈ after, f.TidyFactor) :
    ∀ f ∈ group (before ++ r :: after), f.Tidy := by
  have hmerged : ∀ p ∈ mergeAll [] (before ++ r :: after), p.Tidy := by
    have hfirst := tidyFactor_mergeAll hbefore
    rw [mergeAll_eq] at hfirst ⊢
    rw [List.map_append, List.map_cons, addAll_append_cons]
    refine forall_addAll_of_mem (fun p hp q hqp _ => ?_) ?_ fun p hp => ?_
    · have ⟨f, hf, hfp⟩ := List.mem_map.mp hp
      have hq : q.base.TidyFactor := base_eq_of_alike hqp ▸ hfp ▸ tidyFactor_ofExpr (hafter f hf)
      exact tidy_of_base hq
    · exact forall_add (P := fun q : Power (Total ops) => q.base.TidyFactor)
        (fun _ _ hq => tidy_of_base hq) (fun _ hq => tidy_of_base hq) hfirst (tidy_ofExpr hr)
    · have ⟨f, hf, hfp⟩ := List.mem_map.mp hp
      exact hfp ▸ tidy_of_base (tidyFactor_ofExpr (hafter f hf))
  intro f hf
  have ⟨p, hp, hpf⟩ := exists_of_mem_group hf
  exact hpf ▸ (hmerged p hp).toExpr

end Power

namespace Expr

variable {t r a b : Expr (Total ops)} {addends : List (Total ops × Expr (Total ops))}
  {u u' : Term (Total ops)}

def Named (t : Expr (Total ops)) : Prop :=
  ∀ name, t.contains name → isVariableName name ∧ name ≠ Constant.e.name

theorem Named.of_binary {op : Operator} (h : (binary op a b).Named) : a.Named ∧ b.Named :=
  ⟨fun name ha => h name (Bool.or_eq_true _ _ ▸ .inl ha),
    fun name hb => h name (Bool.or_eq_true _ _ ▸ .inr hb)⟩

theorem Named.of_call {f : Elementary} {args : List (Expr (Total ops))}
    (h : (call f args).Named) : ∀ a ∈ args, a.Named := by
  have hall (args : List (Expr (Total ops)))
      (h : ∀ name, anyContains name args → isVariableName name ∧ name ≠ Constant.e.name) :
      ∀ a ∈ args, a.Named := by
    induction args with
    | nil => nofun
    | cons a as ih =>
      simp only [anyContains, Bool.or_eq_true] at h
      refine List.forall_mem_cons.mpr ⟨fun name ha => h name (.inl ha), ih fun name has => ?_⟩
      exact h name (.inr has)
  exact hall args h

-- Products of tidy factors and sums of tidy terms are tidy.

def TidyProduct (t r : Expr (Total ops)) : Prop :=
  (∀ f ∈ t.factors, f.Tidy) → r.Tidy

def TidySum (addends : List (Total ops × Expr (Total ops))) (r : Expr (Total ops)) : Prop :=
  (∀ p ∈ addends, p.2.Tidy) → r.Tidy

theorem tidyFactor_of_mem_factors (h : ∀ f ∈ t.factors, f.Tidy) :
    ∀ f ∈ t.factors, f.TidyFactor :=
  fun f hf => ⟨h f hf, number?_of_isAtom (isAtom_of_mem_factors hf)⟩

theorem tidy_settles {terms result : List (Term (Total ops))}
    (h : Term.Settles TidyProduct terms result) (hterms : ∀ u ∈ terms, u.Tidy) :
    ∀ u ∈ result, u.Tidy := by
  have hfilter {p q : Term (Total ops) → Bool} {terms : List (Term (Total ops))}
      (h : ∀ u ∈ terms, u.Tidy) : ∀ u ∈ (terms.filter p).filter q, u.Tidy :=
    fun u hu => h u (List.mem_of_mem_filter (List.mem_of_mem_filter hu))
  induction h with
  | done => exact hfilter hterms
  | @round terms products result _ hproducts _ ih =>
    have hrs : ∀ r ∈ products, r.Tidy :=
      forall_of_forall₂ hproducts fun u hu f hf => ((hfilter hterms u hu).toExpr.factor hf).tidy
    refine ih (Term.tidy_mergeAll (hfilter hterms) fun u hu => ?_)
    have ⟨r, hr, hu⟩ := List.mem_flatMap.mp hu
    exact Term.tidy_scaledTerms (hrs r (List.mem_reverse.mp hr)) u hu

theorem tidy_power (ha : a.Tidy) (hb : b.Tidy) : (power a b).Tidy := by
  rcases power_cases a b with ⟨hreduced, hr⟩ | ⟨_, hr⟩ | ⟨x, hr⟩
  case inl =>
    rw [hr]
    refine .binary (fun _ => ?_) ha hb
    have hfold := hreduced.unfolded
    unfold fold? at hfold
    split at hfold
    case h_1 => cases hfold
    case h_2 hne =>
      by_contra hboth
      rw [not_or] at hboth
      cases a with
      | number x =>
        cases b with
        | number y => exact hne x y rfl rfl
        | _        => exact hboth.2 rfl
      | _ => exact hboth.1 rfl
  case inr.inl => rwa [hr]
  case inr.inr => exact hr ▸ .number x

theorem tidy_of_becomes
    (h : Becomes TidyProduct TidySum (fun t r : Expr (Total ops) => t.Named → r.Tidy) t r) :
    t.Named → r.Tidy := by
  intro ht
  cases h with
  | number x   => exact .number x
  | constant c => exact .constant c
  | var name   =>
    have ⟨hname, he⟩ := ht name (beq_self_eq_true name)
    exact .var hname he
  | neg ha hr  => exact hr fun f hf => ((ha ht).factor hf).tidy
  | sum ho ha hb hr =>
    have ⟨ha', hb'⟩ := ht.of_binary
    exact hr (List.forall_mem_singleton.mpr (.sum ho (ha ha') (hb hb')))
  | mul ha hb hr =>
    have ⟨ha', hb'⟩ := ht.of_binary
    exact hr fun f hf => (((ha ha').mul (hb hb')).factor hf).tidy
  | @div _ a' _ b' ha hb =>
    have ⟨ha', hb'⟩ := ht.of_binary
    rcases quotient_cases a' b' with ⟨_, hr⟩ | hr | ⟨x, hr⟩
    case inl     => exact hr ▸ .binary nofun (ha ha') (hb hb')
    case inr.inl =>
      rw [hr]
      exact ha ha'
    case inr.inr => exact hr ▸ .number x
  | pow ha hb => exact tidy_power (ha ht.of_binary.1) (hb ht.of_binary.2)
  | @call f _ args' hargs =>
    rcases application_cases f args' with ⟨_, hr⟩ | ⟨x, hr⟩
    case inl => exact hr ▸ .call (forall_of_forall₂ hargs ht.of_call)
    case inr => exact hr ▸ .number x

variable [NumberText (Total ops)]

theorem tidySum_of_sumsTo (h : SumsTo TidyProduct addends r) : TidySum addends r := by
  intro haddends
  have ⟨terms, hsettles, hr⟩ := h
  have hscaled : ∀ u ∈ scaledTermsOfAll addends, u.Tidy := by
    intro u hu
    have ⟨p, hp, hu⟩ := List.mem_flatMap.mp hu
    exact Term.tidy_scaledTerms (haddends p hp) u hu
  have hmerged := Term.tidy_mergeAll (List.forall_mem_nil _) hscaled
  exact hr ▸ Term.tidy_sumOf (tidy_settles hsettles hmerged)

theorem tidy_of_spreads (h : Spreads TidySum u u') (hu : ∀ f ∈ u.factors, f.TidyFactor) :
    u'.toExpr.Tidy := by
  cases h with
  | none => exact Term.tidy_toExpr hu
  | @into c before after s r _ _ _ hsum =>
    have ⟨hbefore, hrest⟩ := List.forall_mem_append.mp hu
    have ⟨hs, hafter⟩ := List.forall_mem_cons.mp hrest
    have hr := hsum (List.forall_mem_singleton.mpr ((Tidy.number c).mul hs.tidy))
    exact Term.tidy_toExpr_one (Power.tidy_group hbefore hr hafter)

theorem tidyProduct_of_multipliesTo (h : MultipliesTo TidySum t r) : TidyProduct t r := by
  intro ht
  have hgroup : ∀ f ∈ Power.group t.factors, f.TidyFactor :=
    Power.tidyFactor_group (tidyFactor_of_mem_factors ht)
  cases h with
  | zero             => exact .number 0
  | sum _ hu _ _ hsum => exact hsum (List.forall_mem_singleton.mpr (tidy_of_spreads hu hgroup))
  | term _ hu        => exact tidy_of_spreads hu hgroup

-- What simplification leaves is tidy.
theorem Named.tidy_canonicalAt {d : Nat} (ht : t.Named) (h : Gives (t.canonicalAt d) r) :
    r.Tidy :=
  canonicalAt_induct (fun _ _ => tidySum_of_sumsTo) (fun _ _ => tidyProduct_of_multipliesTo)
    (fun _ _ => tidy_of_becomes) d h ht

end Expr

end InfixAlgebra
