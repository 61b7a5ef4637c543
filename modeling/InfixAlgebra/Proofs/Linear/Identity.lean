import InfixAlgebra.Proofs.Linear.Forms

namespace InfixAlgebra

open Exact

variable {I : Interpretation ℚ} {names : String → Prop}

namespace Term

-- The variable of a linear term, and its number.

def name? (u : Term (Exact I)) : Option String :=
  match u.factors with
  | .var x :: _ => some x
  | _           => none

def amount (u : Term (Exact I)) : ℚ :=
  Option.getD u.coefficient 0

def share (point : String → ℚ) : Option String → ℚ
  | none   => 1
  | some x => point x

variable {u v : Term (Exact I)} {terms news : List (Term (Exact I))}

theorem Has.coefficient_eq (h : u.Has (.linear I names)) : u.coefficient = some u.amount := by
  have ⟨q, hq⟩ := Option.ne_none_iff_exists'.mp h.number
  rw [amount, hq, Option.getD_some]

theorem Has.factors_eq_of_name? (hu : u.Has (.linear I names)) (hv : v.Has (.linear I names))
    (h : u.name? = v.name?) : u.factors = v.factors := by
  obtain hfs | ⟨x, _, hfs⟩ := hu.product <;> obtain hgs | ⟨y, _, hgs⟩ := hv.product
  all_goals simp only [name?, hfs, hgs, reduceCtorEq, Option.some.injEq] at h
  · rw [hfs, hgs]
  · rw [hfs, hgs, h]

theorem Has.eq_of_name? (hu : u.Has (.linear I names)) (hv : v.Has (.linear I names))
    (hname : u.name? = v.name?) (hamount : u.amount = v.amount) : u = v := by
  have hcoefficient : u.coefficient = v.coefficient := by
    rw [hu.coefficient_eq, hv.coefficient_eq, hamount]
  have hfactors := hu.factors_eq_of_name? hv hname
  obtain ⟨x, fs⟩ := u
  obtain ⟨y, gs⟩ := v
  exact (Term.mk.injEq ..).mpr ⟨hcoefficient, hfactors⟩

theorem Has.alike_of_name? (hu : u.Has (.linear I names)) (hv : v.Has (.linear I names))
    (h : u.name? = v.name?) : merging.alike u v := by
  change u.factors == v.factors
  rw [← hu.factors_eq_of_name? hv h]
  obtain hfs | ⟨x, _, hfs⟩ := hu.product <;> rw [hfs]
  · rfl
  · exact Bool.and_eq_true_iff.mpr ⟨beq_self_eq_true x, rfl⟩

theorem Has.denote_eq (h : u.Has (.linear I names)) (point : String → ℚ) :
    u.denote (valuesAt point) = some (u.amount * share point u.name?) := by
  rw [denote, h.coefficient_eq]
  obtain hfs | ⟨x, _, hfs⟩ := h.product <;> rw [name?, hfs]
  · rfl
  · exact congrArg some (congrArg (u.amount * ·) (mul_one (point x)))

variable [NumberText (Exact I)]

-- The sort key of a linear term tells its variable.
theorem Has.name?_eq_of_sortKey (hu : u.Has (.linear I names)) (hv : v.Has (.linear I names))
    (h : sortKey u = sortKey v) : u.name? = v.name? := by
  have htext (x : String) : (Term.mk 1 [.var x] : Term (Exact I)).toExpr.render = x := by
    rw [toExpr_one]
    rfl
  obtain hfs | ⟨x, _, hfs⟩ := hu.product <;> obtain hgs | ⟨y, _, hgs⟩ := hv.product
  all_goals
    simp only [sortKey, hfs, hgs, htext, SortKey.mk.injEq] at h
    simp only [name?, hfs, hgs]
  · cases h.1
  · cases h.1
  · exact congrArg some h.2

omit [NumberText (Exact I)] in
theorem pairwise_name? (hterms : ∀ u ∈ terms, u.Has (.linear I names))
    (hd : merging.Distinct terms) : terms.Pairwise fun u v => u.name? ≠ v.name? :=
  hd.imp_of_mem fun hu hv hne hname =>
    hne ((hterms _ hu).alike_of_name? (hterms _ hv) hname)

-- At every point a sum of linear terms is the sum of its numbers, each times its variable.
theorem denote_sumOf_linear (h : ∀ u ∈ terms, u.Has (.linear I names)) (point : String → ℚ) :
    (sumOf terms).denote (valuesAt point) =
      some (terms.map fun u => u.amount * share point u.name?).sum := by
  refine refines_sumOf terms _ ?_
  induction terms with
  | nil => rfl
  | cons u us ih =>
    have ⟨hu, hus⟩ := List.forall_mem_cons.mp h
    rw [denoteSum_cons, List.map_cons, List.sum_cons]
    exact add_eq_some_iff.mpr ⟨_, _, hu.denote_eq point, ih hus, rfl⟩

-- The number of a sum is its value at zero, and the number at a variable is what the value grows by
-- from zero to the unit point of the variable.

omit [NumberText (Exact I)] in
theorem sum_share_zero (terms : List (Term (Exact I))) :
    (terms.map fun u => u.amount * share 0 u.name?).sum = sumAt name? amount terms none := by
  refine congrArg List.sum (List.map_congr_left fun u _ => ?_)
  cases u.name? with
  | none   => exact mul_one _
  | some y => exact mul_zero _

omit [NumberText (Exact I)] in
theorem sum_share_single (terms : List (Term (Exact I))) (x : String) :
    (terms.map fun u => u.amount * share (Pi.single x 1) u.name?).sum =
      sumAt name? amount terms none + sumAt name? amount terms (some x) := by
  rw [sumAt, sumAt, ← List.sum_map_add]
  refine congrArg List.sum (List.map_congr_left fun u _ => ?_)
  cases u.name? with
  | none   => simp [share]
  | some y =>
    by_cases hxy : y = x <;> simp [share, hxy]

-- So the terms can be told from the values.
theorem perm_of_denote_sumOf (hterms : ∀ u ∈ terms, u.Has (.linear I names) ∧ ¬u.coefficient == 0)
    (hd : merging.Distinct terms)
    (hnews : ∀ u ∈ news, u.Has (.linear I names) ∧ ¬u.coefficient == 0)
    (hd' : merging.Distinct news)
    (h : ∀ point, (sumOf terms).denote (valuesAt point) = (sumOf news).denote (valuesAt point)) :
    terms.Perm news := by
  have hsums (point : String → ℚ) : (terms.map fun u => u.amount * share point u.name?).sum =
      (news.map fun u => u.amount * share point u.name?).sum := by
    have hpoint := h point
    rw [denote_sumOf_linear fun u hu => (hterms u hu).1,
      denote_sumOf_linear fun u hu => (hnews u hu).1] at hpoint
    exact Option.some.inj hpoint
  have hamount {u : Term (Exact I)} (hu : u.Has (.linear I names) ∧ ¬u.coefficient == 0) :
      u.amount ≠ 0 := by
    intro hzero
    refine hu.2 ?_
    rw [hu.1.coefficient_eq, hzero]
    exact beq_self (Option.some_ne_none 0)
  have hnone := hsums 0
  rw [sum_share_zero, sum_share_zero] at hnone
  refine perm_of_sumAt (pairwise_name? (fun u hu => (hterms u hu).1) hd)
    (pairwise_name? (fun u hu => (hnews u hu).1) hd') (fun u hu => hamount (hterms u hu))
    (fun u hu => hamount (hnews u hu)) (fun u hu v hv => (hterms u hu).1.eq_of_name? (hnews v hv).1)
    fun i => ?_
  cases i with
  | none   => exact hnone
  | some x =>
    have hsome := hsums (Pi.single x 1)
    rw [sum_share_single, sum_share_single, hnone] at hsome
    exact add_left_cancel hsome

end Term

variable [NumberText (Exact I)]

namespace Expr

variable {t₁ t₂ r₁ r₂ : Expr (Exact I)}

-- Sums of linear terms that stand for the same everywhere are the same.
theorem SumsUp.eq_of_denote_eq (h₁ : r₁.SumsUp (.linear I names)) (h₂ : r₂.SumsUp (.linear I names))
    (h : ∀ point, r₁.denote (valuesAt point) = r₂.denote (valuesAt point)) : r₁ = r₂ := by
  obtain ⟨terms, hterms, hd, rfl⟩ := h₁
  obtain ⟨news, hnews, hd', rfl⟩ := h₂
  have hperm := Term.perm_of_denote_sumOf hterms hd hnews hd' h
  have hnames := Term.pairwise_name? (fun u hu => (hterms u hu).1) hd
  have hsymm : Std.Symm fun u v : Term (Exact I) => u.name? ≠ v.name? := ⟨fun _ _ => Ne.symm⟩
  have hkey : ∀ u ∈ terms, ∀ v ∈ terms, Term.sortKey u = Term.sortKey v → u = v := by
    intro u hu v hv huv
    by_contra hne
    exact hnames.forall hu hv hne ((hterms u hu).1.name?_eq_of_sortKey (hterms v hv).1 huv)
  rw [Term.sumOf, Term.sumOf, SortKey.sort_eq_sort_of_perm hperm hkey]

-- Two linear expressions stand for the same function if and only if their canonical forms are the
-- same.
theorem canonical_eq_iff_of_linear {config : Config (Exact I)} (h₁ : t₁.Linear) (h₂ : t₂.Linear)
    (hr₁ : t₁.canonical config = .ok r₁) (hr₂ : t₂.canonical config = .ok r₂) :
    r₁ = r₂ ↔
      ∀ point, t₁.denote (valuesAt point) = t₂.denote (valuesAt point) := by
  have value {t r : Expr (Exact I)} (ht : t.Linear) (hr : t.canonical config = .ok r)
      (point : String → ℚ) : r.denote (valuesAt point) = t.denote (valuesAt point) := by
    have hvalue := (linearizes_of_canonical hr ht (fun _ => True) fun _ _ => trivial).2
    have hdefined : t.denote (valuesAt point) ≠ none :=
      ht.denote_ne_none fun name => Option.some_ne_none (point name)
    have ⟨q, hq⟩ := Option.ne_none_iff_exists'.mp hdefined
    exact (hvalue (valuesAt point) q hq).trans hq.symm
  constructor
  · intro hr point
    rw [← value h₁ hr₁, ← value h₂ hr₂, hr]
  · intro h
    have hsum {t r : Expr (Exact I)} (ht : t.Linear) (hr : t.canonical config = .ok r) :
        r.SumsUp (.linear I fun _ => True) :=
      (linearizes_of_canonical hr ht (fun _ => True) fun _ _ => trivial).1
    refine (hsum h₁ hr₁).eq_of_denote_eq (hsum h₂ hr₂) fun point => ?_
    rw [value h₁ hr₁, value h₂ hr₂, h point]

section Example

local instance : DecidableEq (Exact .rational) :=
  inferInstanceAs (DecidableEq (Option ℚ))

-- Numbers are multiplied out, and like terms meet whatever their order.
theorem canonical_eq_iff_of_scaled_difference :
    let n (q : ℚ) : Expr (Exact .rational) := .number (some q)
    let x : Expr (Exact .rational) := .var "x"
    let y : Expr (Exact .rational) := .var "y"
    let t₁ := sub (mul (add (n 1) (n 1)) (sub x (add y (n 3)))) x
    let t₂ := neg (add (sub (mul y (n 2)) x) (n 6))
    let r := sub (add (n (-6)) x) (mul (n 2) y)
    t₁.Linear ∧ t₂.Linear ∧ t₁.canonical .standard = .ok r ∧ t₂.canonical .standard = .ok r ∧
      ∀ point, t₁.denote (valuesAt point) = t₂.denote (valuesAt point) := by
  intro n x y t₁ t₂ r
  have h₁ : t₁.Linear := by
    refine .sub (.mul (.add (.number 1) (.number 1)) (.sub (.var "x") (.add (.var "y") (.number 3)))
      (.inl fun name => ?_)) (.var "x")
    exact Bool.false_ne_true
  have h₂ : t₂.Linear := by
    refine .neg (.add (.sub (.mul (.var "y") (.number 2) (.inr fun name => ?_)) (.var "x"))
      (.number 6))
    exact Bool.false_ne_true
  have hr₁ : t₁.canonical .standard = .ok r := by
    subst r t₁ n x y
    decide +kernel
  have hr₂ : t₂.canonical .standard = .ok r := by
    subst r t₂ n x y
    decide +kernel
  exact ⟨h₁, h₂, hr₁, hr₂, (canonical_eq_iff_of_linear h₁ h₂ hr₁ hr₂).mp rfl⟩

end Example

end Expr

end InfixAlgebra
