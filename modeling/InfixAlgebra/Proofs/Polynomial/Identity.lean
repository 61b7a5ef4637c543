import InfixAlgebra.Proofs.Canonical.Keyed
import InfixAlgebra.Proofs.Polynomial.Ordering
import InfixAlgebra.Proofs.Polynomial.Rationalization

namespace InfixAlgebra

open Exact

variable {I : Interpretation ℚ} [NumberText (Exact I)]

namespace Term

variable {u v : Term (Exact I)} {terms news : List (Term (Exact I))}

omit [NumberText (Exact I)] in
theorem degrees_apply (fs : List (Expr (Exact I))) (x : String) :
    degrees fs x =
      sumAt (fun f => (Power.ofExpr f).name) (fun f => (Power.ofExpr f).degree) fs x := by
  rw [degrees, ← Finsupp.applyAddHom_apply, map_list_sum, List.map_map]
  refine congrArg List.sum (List.map_congr_left fun f _ => ?_)
  exact Finsupp.single_apply

omit [NumberText (Exact I)] in
theorem coeff_polynomialSum (terms : List (Term (Exact I))) (m : String →₀ ℕ) :
    (polynomialSum terms).coeff m =
      sumAt (fun u => degrees u.factors) (fun u => Option.getD u.coefficient 0) terms m := by
  rw [polynomialSum, ← MvPolynomial.coeffAddMonoidHom_apply, map_list_sum, List.map_map]
  refine congrArg List.sum (List.map_congr_left fun u _ => ?_)
  exact MvPolynomial.coeff_monomial ..

-- Products of the same degrees have the same factors.
theorem Monomial.factors_eq_of_degrees (hlegible : Legible I) (hu : u.Monomial) (hv : v.Monomial)
    (h : degrees u.factors = degrees v.factors) : u.factors = v.factors := by
  have hdistinct {w : Term (Exact I)} (hw : w.Monomial) :
      w.factors.Pairwise fun f g => (Power.ofExpr f).name ≠ (Power.ofExpr g).name := by
    refine (List.pairwise_map.mp hw.grouped.distinct).imp_of_mem fun {f g} hf hg hne hname => hne ?_
    exact (hw.powers f hf).positive_ofExpr.alike_of_name_eq (hw.powers g hg).positive_ofExpr hname
  have hdegree {w : Term (Exact I)} (hw : w.Monomial) :
      ∀ f ∈ w.factors, (Power.ofExpr f).degree ≠ 0 :=
    fun f hf => (hw.powers f hf).positive_ofExpr.degree_pos.ne'
  refine hu.factors_eq_of_perm hlegible hv (perm_of_sumAt (hdistinct hu) (hdistinct hv)
    (hdegree hu) (hdegree hv) (fun f hf g hg hname hdeg => ?_) fun x => ?_)
  · have hf := hu.powers f hf
    have hg := hv.powers g hg
    have hpower : Power.ofExpr f = Power.ofExpr g := by
      rw [hf.positive_ofExpr.eq_mk, hg.positive_ofExpr.eq_mk, hname, hdeg]
    rw [← hf.toExpr_ofExpr, ← hg.toExpr_ofExpr, hpower]
  · rw [← degrees_apply, ← degrees_apply, h]

theorem Monomial.alike_of_factors_eq (hu : u.Monomial) (h : u.factors = v.factors) :
    merging.alike u v := by
  have hself (fs : List (Expr (Exact I))) (hfs : ∀ f ∈ fs, f.IsPower) : fs == fs := by
    induction fs with
    | nil => rfl
    | cons f fs ih =>
      have ⟨hf, hfs⟩ := List.forall_mem_cons.mp hfs
      rw [List.cons_beq_cons, Bool.and_eq_true]
      exact ⟨hf.beq_self, ih hfs⟩
  change u.factors == v.factors
  rw [← h]
  exact hself u.factors hu.powers

theorem pairwise_degrees (hlegible : Legible I) (hterms : ∀ u ∈ terms, u.Monomial)
    (hd : merging.Distinct terms) :
    terms.Pairwise fun u v => degrees u.factors ≠ degrees v.factors := by
  refine hd.imp_of_mem fun {u v} hu hv hne hdegrees => hne ?_
  have hfactors := (hterms u hu).factors_eq_of_degrees hlegible (hterms v hv) hdegrees
  exact (hterms u hu).alike_of_factors_eq hfactors

-- The terms of a polynomial are unique.
theorem perm_of_polynomialSum (hlegible : Legible I)
    (hterms : ∀ u ∈ terms, u.Monomial ∧ ¬u.coefficient == 0) (hd : merging.Distinct terms)
    (hnews : ∀ u ∈ news, u.Monomial ∧ ¬u.coefficient == 0) (hd' : merging.Distinct news)
    (h : polynomialSum terms = polynomialSum news) : terms.Perm news := by
  have hvalue {u : Term (Exact I)} (hu : u.Monomial ∧ ¬u.coefficient == 0) :
      Option.getD u.coefficient 0 ≠ 0 := by
    have ⟨q, hq⟩ := Option.ne_none_iff_exists'.mp hu.1.defined
    rw [hq, Option.getD_some]
    intro hzero
    have hcoefficient : u.coefficient = 0 := hq.trans (congrArg some hzero)
    have hzero : (0 : Exact I) == 0 := beq_self nofun
    exact hu.2 (hcoefficient ▸ hzero)
  refine perm_of_sumAt (pairwise_degrees hlegible (fun u hu => (hterms u hu).1) hd)
    (pairwise_degrees hlegible (fun u hu => (hnews u hu).1) hd') (fun u hu => hvalue (hterms u hu))
    (fun u hu => hvalue (hnews u hu)) (fun u hu v hv hdegrees hcoefficients => ?_) fun m => ?_
  · have hu := (hterms u hu).1
    have hv := (hnews v hv).1
    have ⟨q, hq⟩ := Option.ne_none_iff_exists'.mp hu.defined
    have ⟨q', hq'⟩ := Option.ne_none_iff_exists'.mp hv.defined
    rw [hq, hq', Option.getD_some, Option.getD_some] at hcoefficients
    obtain ⟨c, fs⟩ := u
    obtain ⟨c', gs⟩ := v
    rw [Term.mk.injEq]
    exact ⟨hq.trans (hcoefficients ▸ hq'.symm), hu.factors_eq_of_degrees hlegible hv hdegrees⟩
  · rw [← coeff_polynomialSum, ← coeff_polynomialSum, h]

theorem sumOf_eq_of_perm (hlegible : Legible I) (hterms : ∀ u ∈ terms, u.Monomial)
    (hd : merging.Distinct terms) (h : terms.Perm news) : sumOf terms = sumOf news := by
  have hsymm : Std.Symm fun u v : Term (Exact I) => ¬merging.alike u v :=
    ⟨fun _ _ hne h => hne ((Expr.beq_list_comm Scalar.Regular.beq_comm ..).trans h)⟩
  have hkey : ∀ u ∈ terms, ∀ v ∈ terms, sortKey u = sortKey v → u = v := by
    intro u hu v hv huv
    have hfactors := (hterms u hu).factors_eq_of_sortKey hlegible (hterms v hv) huv
    by_contra hne
    exact hd.forall hu hv hne ((hterms u hu).alike_of_factors_eq hfactors)
  rw [sumOf, sumOf, SortKey.sort_eq_sort_of_perm h hkey]

end Term

namespace Expr

variable {t₁ t₂ r₁ r₂ : Expr (Exact I)} {p₁ p₂ : MvPolynomial String ℚ}

-- Expanded expressions that stand for the same everywhere are the same.
theorem Expanded.eq_of_denote_eq (hI : I.Lawful) (hlegible : Legible I) (h₁ : r₁.Expanded)
    (h₂ : r₂.Expanded)
    (h : ∀ point, r₁.denote (valuesAt point) = r₂.denote (valuesAt point)) : r₁ = r₂ := by
  obtain ⟨terms, hterms, hd, rfl⟩ := h₁
  obtain ⟨news, hnews, hd', rfl⟩ := h₂
  have hmonomials := fun u hu => (hterms u hu).1
  have hsums : Term.polynomialSum terms = Term.polynomialSum news := by
    refine MvPolynomial.funext fun point => ?_
    have hpoint := h point
    rw [Term.denote_sumOf_eq hI hmonomials, Term.denote_sumOf_eq hI fun u hu => (hnews u hu).1]
      at hpoint
    exact Option.some.inj hpoint
  have hperm := Term.perm_of_polynomialSum hlegible hterms hd hnews hd' hsums
  exact Term.sumOf_eq_of_perm hlegible hmonomials hd hperm

-- Two polynomials are the same if and only if their rationalized forms are.
theorem rationalize_eq_iff (hI : I.Lawful) (hint : I.Integral) (hlegible : Legible I)
    {config : Config (Exact I)} (h₁ : t₁.Denotes p₁) (h₂ : t₂.Denotes p₂)
    (hr₁ : t₁.rationalize config = .ok r₁) (hr₂ : t₂.rationalize config = .ok r₂) :
    r₁ = r₂ ↔ p₁ = p₂ := by
  have hvalue₁ (point : String → ℚ) : r₁.denote (valuesAt point) = some (p₁.eval point) :=
    preserves_rationalize hI hint hr₁ _ (h₁.denote_eq hI point)
  have hvalue₂ (point : String → ℚ) : r₂.denote (valuesAt point) = some (p₂.eval point) :=
    preserves_rationalize hI hint hr₂ _ (h₂.denote_eq hI point)
  constructor
  · intro hr
    refine MvPolynomial.funext fun point => ?_
    have hpoint := hvalue₁ point
    rw [hr, hvalue₂] at hpoint
    exact (Option.some.inj hpoint).symm
  · intro hp
    refine (expanded_of_rationalize hint h₁ hr₁).eq_of_denote_eq hI hlegible
      (expanded_of_rationalize hint h₂ hr₂) fun point => ?_
    rw [hvalue₁, hvalue₂, hp]

end Expr

theorem Exact.display_ofNat (n : ℕ) :
    NumberText.display (Scalar.ofNat n : Exact .rational) = n.repr := by
  change toString (n : ℚ) = n.repr
  unfold toString instToStringRat
  dsimp only
  rw [if_pos (Rat.den_natCast n), Rat.num_natCast]
  rfl

theorem Exact.legible_rational : Legible .rational where
  inj {m n} h := by
    rw [display_ofNat, display_ofNat] at h
    exact Nat.repr_inj.mp h
  no_blank n h := by
    rw [display_ofNat, Nat.toList_repr] at h
    exact absurd (Nat.isDigit_of_mem_toDigits (by decide) (by decide) h) (by decide)

namespace Expr

section Example

local instance : DecidableEq (Exact .rational) :=
  inferInstanceAs (DecidableEq (Option ℚ))

-- A product of sums and a difference of squares in another order.
theorem rationalize_eq_iff_of_conjugates :
    let x : Expr (Exact .rational) := .var "x"
    let y : Expr (Exact .rational) := .var "y"
    let two : Expr (Exact .rational) := .number (some 2)
    let t₁ := mul (sub x y) (add y x)
    let t₂ := add (neg (mul y y)) (pow x two)
    let r := sub (pow x two) (pow y two)
    let X : MvPolynomial String ℚ := .X "x"
    let Y : MvPolynomial String ℚ := .X "y"
    t₁.Denotes ((X - Y) * (Y + X)) ∧ t₂.Denotes (-(Y * Y) + X ^ 2) ∧
      t₁.rationalize .standard = .ok r ∧ t₂.rationalize .standard = .ok r ∧
      (X - Y) * (Y + X) = -(Y * Y) + X ^ 2 := by
  intro x y two t₁ t₂ r X Y
  have hx : IsVariable "x" := ⟨by decide, by decide⟩
  have hy : IsVariable "y" := ⟨by decide, by decide⟩
  have h₁ : t₁.Denotes ((X - Y) * (Y + X)) :=
    .mul (.sub (.var hx) (.var hy)) (.add (.var hy) (.var hx))
  have h₂ : t₂.Denotes (-(Y * Y) + X ^ 2) :=
    .add (.neg (.mul (.var hy) (.var hy))) (.pow hx (.number 2))
  have hr₁ : t₁.rationalize .standard = .ok r := by
    subst r t₁ two x y
    decide +kernel
  have hr₂ : t₂.rationalize .standard = .ok r := by
    subst r t₂ two x y
    decide +kernel
  exact ⟨h₁, h₂, hr₁, hr₂, (rationalize_eq_iff Interpretation.lawful_rational
    Interpretation.integral_rational legible_rational h₁ h₂ hr₁ hr₂).mp rfl⟩

end Example

end Expr

end InfixAlgebra
