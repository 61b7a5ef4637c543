import InfixAlgebra.Proofs.Decimal.Numeral
import InfixAlgebra.Proofs.Polynomial.Monomial

namespace InfixAlgebra

variable {I : Interpretation ℚ} [NumberText (Exact I)]

-- How numbers have to be written for natural exponents to be told apart in the texts of products.
structure Exact.Legible (I : Interpretation ℚ) [NumberText (Exact I)] : Prop where
  inj      : ∀ {m n : ℕ}, NumberText.display (Scalar.ofNat m : Exact I) =
    NumberText.display (Scalar.ofNat n : Exact I) → m = n
  no_blank : ∀ n : ℕ, ' ' ∉ (NumberText.display (Scalar.ofNat n : Exact I)).toList

omit [NumberText (Exact I)] in
theorem Exact.not_lt_zero (n : ℕ) : ¬Scalar.lt (Scalar.ofNat n : Exact I) 0 :=
  fun h => absurd (of_decide_eq_true h) (Nat.cast_nonneg n).not_gt

theorem HeadNot.append_inj {p : Char → Bool} {ds ds' cs cs' : List Char} (hd : ∀ c ∈ ds, p c)
    (hd' : ∀ c ∈ ds', p c) (hc : HeadNot p cs) (hc' : HeadNot p cs') (h : ds ++ cs = ds' ++ cs') :
    ds = ds' ∧ cs = cs' := by
  constructor
  · rw [← takeWhile_append hd hc, h, takeWhile_append hd' hc']
  · rw [← dropWhile_append hd hc, h, dropWhile_append hd' hc']

namespace Expr

variable {f g t : Expr (Exact I)} {fs gs : List (Expr (Exact I))} {x : String} {k : ℕ}

def factorTail (fs : List (Expr (Exact I))) : List Char :=
  fs.flatMap fun f => ' ' :: '*' :: ' ' :: f.render.toList

theorem headNot_factorTail (fs : List (Expr (Exact I))) : HeadNot (· != ' ') (factorTail fs) := by
  cases fs with
  | nil  => exact .nil
  | cons => exact HeadNot.cons_iff.mpr rfl

theorem toList_render_pow (x : String) (k : ℕ) :
    (pow (.var x) (.number (Scalar.ofNat k)) : Expr (Exact I)).render.toList =
      x.toList ++ ' ' :: '^' :: ' ' :: (NumberText.display (Scalar.ofNat k : Exact I)).toList := by
  have hnumber : (number (Scalar.ofNat k) : Expr (Exact I)).precedence = 5 :=
    if_neg (Exact.not_lt_zero k)
  have hright : rightNeedsParens .pow (number (Scalar.ofNat k) : Expr (Exact I)) = false := by
    rw [rightNeedsParens, hnumber]
    rfl
  rw [render, hright]
  simp [render, parenthesized, leftNeedsParens, precedence, Operator.isRightAssociative,
    Operator.precedence, Operator.symbol]

omit [NumberText (Exact I)] in
theorem IsPower.two_lt_precedence (h : f.IsPower) : 2 < f.precedence := by
  cases h with
  | var hx    => exact (by decide : 2 < 5)
  | pow hx hk => exact (by decide : 2 < 4)

-- No factor needs parentheses.
theorem toList_render_mul (ht : 2 ≤ t.precedence) (hf : f.IsPower) :
    (mul t f).render.toList = t.render.toList ++ ' ' :: '*' :: ' ' :: f.render.toList := by
  have hleft : leftNeedsParens .mul t = false := decide_eq_false (Nat.not_lt.mpr ht)
  have hright : rightNeedsParens .mul f = false :=
    decide_eq_false (Nat.not_le.mpr hf.two_lt_precedence)
  rw [render, hleft, hright]
  simp [parenthesized, Operator.symbol]

theorem toList_render_foldl_mul (ht : 2 ≤ t.precedence) (hfs : ∀ f ∈ fs, f.IsPower) :
    (fs.foldl .mul t).render.toList = t.render.toList ++ factorTail fs := by
  induction fs generalizing t with
  | nil => exact (List.append_nil _).symm
  | cons f fs ih =>
    have ⟨hf, hfs⟩ := List.forall_mem_cons.mp hfs
    have hmul : 2 ≤ (mul t f).precedence := Nat.le_refl 2
    rw [List.foldl_cons, ih hmul hfs, toList_render_mul ht hf, List.append_assoc]
    rfl

theorem exists_toList_of_isVariable (h : IsVariable x) : ∃ c, x.toList = [c] := by
  have hname := h.1
  unfold isVariableName at hname
  split at hname
  case h_1 c hc => exact ⟨c, hc⟩
  case h_2      => cases hname

-- The first factor can be read off the text of a product.
theorem eq_of_append_factorTail (hI : Exact.Legible I) (hf : f.IsPower) (hg : g.IsPower)
    (h : f.render.toList ++ factorTail fs = g.render.toList ++ factorTail gs) :
    f = g ∧ factorTail fs = factorTail gs := by
  have hcaret (fs : List (Expr (Exact I))) (cs : List Char) :
      factorTail fs ≠ ' ' :: '^' :: cs := by
    cases fs with
    | nil    => nofun
    | cons _ => exact fun h => absurd (List.cons.inj (List.cons.inj h).2).1 (by decide)
  have hword (k : ℕ) : ∀ c ∈ (NumberText.display (Scalar.ofNat k : Exact I)).toList, c != ' ' :=
    fun c hc => bne_iff_ne.mpr fun h => hI.no_blank k (h ▸ hc)
  cases hf with
  | @var x hx =>
    obtain ⟨c, hc⟩ := exists_toList_of_isVariable hx
    cases hg with
    | @var y hy =>
      obtain ⟨d, hd⟩ := exists_toList_of_isVariable hy
      simp only [render, hc, hd, List.singleton_append, List.cons.injEq] at h
      have hxy : x = y := String.toList_inj.mp (by rw [hc, hd, h.1])
      exact ⟨congrArg _ hxy, h.2⟩
    | @pow y l hy _ =>
      obtain ⟨d, hd⟩ := exists_toList_of_isVariable hy
      rw [toList_render_pow, render, hc, hd] at h
      exact absurd (List.cons.inj h).2 (hcaret _ _)
  | @pow x k hx _ =>
    obtain ⟨c, hc⟩ := exists_toList_of_isVariable hx
    cases hg with
    | @var y hy =>
      obtain ⟨d, hd⟩ := exists_toList_of_isVariable hy
      rw [toList_render_pow, render, hc, hd] at h
      exact absurd (List.cons.inj h).2.symm (hcaret _ _)
    | @pow y l hy _ =>
      obtain ⟨d, hd⟩ := exists_toList_of_isVariable hy
      rw [toList_render_pow, toList_render_pow, hc, hd] at h
      have ⟨hcd, hrest⟩ := List.cons.inj h
      have hxy : x = y := String.toList_inj.mp (by rw [hc, hd, hcd])
      have ⟨hdigits, htails⟩ := HeadNot.append_inj (hword k) (hword l) (headNot_factorTail fs)
        (headNot_factorTail gs) ((List.append_right_inj [' ', '^', ' ']).mp hrest)
      rw [hxy, hI.inj (String.toList_inj.mp hdigits)]
      exact ⟨rfl, htails⟩

theorem eq_of_factorTail (hI : Exact.Legible I) (hfs : ∀ f ∈ fs, f.IsPower)
    (hgs : ∀ g ∈ gs, g.IsPower) (h : factorTail fs = factorTail gs) : fs = gs := by
  induction fs generalizing gs with
  | nil =>
    cases gs with
    | nil  => rfl
    | cons => cases h
  | cons f fs ih =>
    cases gs with
    | nil => cases h
    | cons g gs =>
      have ⟨hf, hfs⟩ := List.forall_mem_cons.mp hfs
      have ⟨hg, hgs⟩ := List.forall_mem_cons.mp hgs
      have htexts : f.render.toList ++ factorTail fs = g.render.toList ++ factorTail gs :=
        (List.append_right_inj [' ', '*', ' ']).mp h
      have ⟨hfg, htails⟩ := eq_of_append_factorTail hI hf hg htexts
      rw [hfg, ih hfs hgs htails]

-- Different powers of variables have different texts, and so have different products of them.

theorem IsPower.eq_of_sortKey (hI : Exact.Legible I) (hf : f.IsPower) (hg : g.IsPower)
    (h : f.sortKey = g.sortKey) : f = g := by
  have htext : f.render = g.render := congrArg SortKey.text h
  exact (@eq_of_append_factorTail _ _ _ _ [] [] hI hf hg (by rw [htext])).1

end Expr

namespace Term

variable {u v : Term (Exact I)}

theorem Monomial.factors_eq_of_sortKey (hI : Exact.Legible I) (hu : u.Monomial) (hv : v.Monomial)
    (h : u.sortKey = v.sortKey) : u.factors = v.factors := by
  have hrank {f : Expr (Exact I)} (hf : f.IsPower) : f.rank = 2 := by
    cases hf <;> rfl
  have htext {f : Expr (Exact I)} {fs : List (Expr (Exact I))} (hfs : ∀ g ∈ f :: fs, g.IsPower) :
      (Term.mk 1 (f :: fs)).toExpr.render.toList = f.render.toList ++ Expr.factorTail fs := by
    have ⟨hf, hfs⟩ := List.forall_mem_cons.mp hfs
    rw [toExpr_one, Expr.toList_render_foldl_mul hf.two_lt_precedence.le hfs]
  have hu := hu.powers
  have hv := hv.powers
  simp only [sortKey] at h
  cases hfs : u.factors with
  | nil =>
    cases hgs : v.factors with
    | nil => rfl
    | cons g gs =>
      rw [hgs] at hv
      simp only [hfs, hgs, hrank (hv g List.mem_cons_self)] at h
      exact absurd (congrArg SortKey.rank h) (by decide : 0 ≠ 2)
  | cons f fs =>
    rw [hfs] at hu
    cases hgs : v.factors with
    | nil =>
      simp only [hfs, hgs, hrank (hu f List.mem_cons_self)] at h
      exact absurd (congrArg SortKey.rank h) (by decide : 2 ≠ 0)
    | cons g gs =>
      rw [hgs] at hv
      simp only [hfs, hgs] at h
      have htexts := congrArg (fun k => k.text.toList) h
      rw [htext hu, htext hv] at htexts
      have ⟨hf, hfs⟩ := List.forall_mem_cons.mp hu
      have ⟨hg, hgs⟩ := List.forall_mem_cons.mp hv
      have ⟨hfg, htails⟩ := Expr.eq_of_append_factorTail hI hf hg htexts
      rw [hfg, Expr.eq_of_factorTail hI hfs hgs htails]

-- Products of the same powers are written alike.
theorem Monomial.factors_eq_of_perm (hI : Exact.Legible I) (hu : u.Monomial) (hv : v.Monomial)
    (h : u.factors.Perm v.factors) : u.factors = v.factors :=
  hu.grouped.ordered.eq_of_perm hv.grouped.ordered h fun f hf g hg =>
    (hu.powers f hf).eq_of_sortKey hI (hu.powers g hg)

end Term

end InfixAlgebra
