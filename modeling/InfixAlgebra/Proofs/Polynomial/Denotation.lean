import InfixAlgebra.Proofs.Exact.Terms
import InfixAlgebra.Proofs.Fraction.Rational
import InfixAlgebra.Proofs.Polynomial.Monomial

namespace InfixAlgebra

open Exact

variable {I : Interpretation ℚ}

def Exact.valuesAt (point : String → ℚ) : String → Exact I :=
  fun x => some (point x)

namespace Expr

-- Powers have literal natural exponents, and are of variables only.
inductive Denotes : Expr (Exact I) → MvPolynomial String ℚ → Prop
  | number (q : ℚ) : Denotes (.number (some q)) (.C q)
  | var {x : String} : IsVariable x → Denotes (.var x) (.X x)
  | neg {a : Expr (Exact I)} {p : MvPolynomial String ℚ} : Denotes a p → Denotes (.neg a) (-p)
  | add {a b : Expr (Exact I)} {p q : MvPolynomial String ℚ} : Denotes a p → Denotes b q →
    Denotes (.add a b) (p + q)
  | sub {a b : Expr (Exact I)} {p q : MvPolynomial String ℚ} : Denotes a p → Denotes b q →
    Denotes (.sub a b) (p - q)
  | mul {a b : Expr (Exact I)} {p q : MvPolynomial String ℚ} : Denotes a p → Denotes b q →
    Denotes (.mul a b) (p * q)
  | pow {x : String} {b : Expr (Exact I)} {k : ℕ} : IsVariable x → Literal k b →
    Denotes (.pow (.var x) b) (.X x ^ k)

variable {t : Expr (Exact I)} {p : MvPolynomial String ℚ}

-- At every point, an expression stands for the value of its polynomial.
theorem Denotes.denote_eq (hI : I.Lawful) (h : t.Denotes p) (point : String → ℚ) :
    t.denote (valuesAt point) = some (p.eval point) := by
  induction h with
  | number q => exact congrArg some (MvPolynomial.eval_C q).symm
  | var _    => exact congrArg some (MvPolynomial.eval_X _).symm
  | neg _ ih =>
    rw [map_neg]
    exact neg_eq_some_iff.mpr ⟨_, ih, rfl⟩
  | add _ _ iha ihb =>
    rw [map_add]
    exact add_eq_some_iff.mpr ⟨_, _, iha, ihb, rfl⟩
  | sub _ _ iha ihb =>
    rw [map_sub]
    exact sub_eq_some_iff.mpr ⟨_, _, iha, ihb, rfl⟩
  | mul _ _ iha ihb =>
    rw [map_mul]
    exact mul_eq_some_iff.mpr ⟨_, _, iha, ihb, rfl⟩
  | @pow x b k _ hb =>
    rw [map_pow, MvPolynomial.eval_X]
    refine lift_eq_some_iff.mpr ⟨point x, k, rfl, ?_, hI.pow_natCast (point x) k⟩
    rw [hb.denote_eq, Int.cast_natCast]

end Expr

namespace Power

-- The variable of a power, and its exponent.

def name (p : Power (Exact I)) : String :=
  match p.base with
  | .var x => x
  | _      => ""

def degree (p : Power (Exact I)) : ℕ :=
  Option.elim p.exponent 0 fun q => q.num.toNat

theorem degree_mk (b : Expr (Exact I)) (k : ℕ) : degree ⟨b, Scalar.ofNat k⟩ = k := by
  change (k : ℚ).num.toNat = k
  rw [Rat.num_natCast, Int.toNat_natCast]

variable {p q : Power (Exact I)}

-- Powers of the same variable are merged.
theorem Positive.alike_of_name_eq (hp : p.Positive) (hq : q.Positive) (h : p.name = q.name) :
    merging.alike p q := by
  cases hp with
  | mk =>
    cases hq with
    | mk =>
      cases h
      exact beq_self_eq_true (_ : String)

theorem Positive.eq_mk (h : p.Positive) : p = ⟨.var p.name, Scalar.ofNat p.degree⟩ := by
  cases h with
  | mk hx hk => rw [degree_mk]; rfl

theorem Positive.degree_pos (h : p.Positive) : 0 < p.degree := by
  cases h with
  | mk hx hk => rwa [degree_mk]

theorem Positive.denote_toExpr (hI : I.Lawful) (h : p.Positive) (point : String → ℚ) :
    p.toExpr.denote (valuesAt point) = some (point p.name ^ p.degree) := by
  cases h with
  | @mk x k hx hk =>
    rw [degree_mk]
    unfold toExpr
    split
    case isTrue hone =>
      rw [ofNat_beq_one_iff.mp hone, pow_one]
      rfl
    case isFalse =>
      exact lift_eq_some_iff.mpr ⟨point x, k, rfl, rfl, hI.pow_natCast (point x) k⟩

end Power

namespace Term

noncomputable def degrees (factors : List (Expr (Exact I))) : String →₀ ℕ :=
  (factors.map fun f => .single (Power.ofExpr f).name (Power.ofExpr f).degree).sum

noncomputable def polynomial (u : Term (Exact I)) : MvPolynomial String ℚ :=
  .monomial (degrees u.factors) (Option.getD u.coefficient 0)

noncomputable def polynomialSum (terms : List (Term (Exact I))) : MvPolynomial String ℚ :=
  (terms.map polynomial).sum

theorem prod_degrees_cons (f : Expr (Exact I)) (fs : List (Expr (Exact I))) (point : String → ℚ) :
    (degrees (f :: fs)).prod (fun x k => point x ^ k) =
      point (Power.ofExpr f).name ^ (Power.ofExpr f).degree *
        (degrees fs).prod fun x k => point x ^ k := by
  rw [degrees, List.map_cons, List.sum_cons,
    Finsupp.prod_add_index' (fun _ => pow_zero _) (fun _ _ _ => pow_add _ _ _)]
  exact congrArg (· * _) (Finsupp.prod_single_index (pow_zero _))

variable [NumberText (Exact I)] {u : Term (Exact I)} {terms : List (Term (Exact I))}

theorem prod_denote_eq (hI : I.Lawful) {fs : List (Expr (Exact I))} (hfs : ∀ f ∈ fs, f.IsPower)
    (point : String → ℚ) :
    (fs.map (Expr.denote (valuesAt point))).prod =
      (some ((degrees fs).prod fun x k => point x ^ k) : Exact I) := by
  induction fs with
  | nil => exact congrArg some Finsupp.prod_zero_index.symm
  | cons f fs ih =>
    have ⟨hf, hfs⟩ := List.forall_mem_cons.mp hfs
    have hvalue := hf.positive_ofExpr.denote_toExpr hI point
    rw [hf.toExpr_ofExpr] at hvalue
    rw [List.map_cons, List.prod_cons, prod_degrees_cons]
    exact mul_eq_some_iff.mpr ⟨_, _, hvalue, ih hfs, rfl⟩

theorem Monomial.denote_eq (hI : I.Lawful) (h : u.Monomial) (point : String → ℚ) :
    u.denote (valuesAt point) = some (u.polynomial.eval point) := by
  have ⟨q, hq⟩ := Option.ne_none_iff_exists'.mp h.defined
  rw [polynomial, MvPolynomial.eval_monomial, hq]
  exact mul_eq_some_iff.mpr ⟨q, _, hq, prod_denote_eq hI h.powers point, rfl⟩

-- At every point, a sum of monomials stands for the value of their polynomials.
theorem denote_sumOf_eq (hI : I.Lawful) (h : ∀ u ∈ terms, u.Monomial) (point : String → ℚ) :
    (sumOf terms).denote (valuesAt point) = some ((polynomialSum terms).eval point) := by
  refine refines_sumOf terms _ ?_
  induction terms with
  | nil => exact congrArg some (map_zero _).symm
  | cons u us ih =>
    have ⟨hu, hus⟩ := List.forall_mem_cons.mp h
    rw [denoteSum_cons, polynomialSum, List.map_cons, List.sum_cons, map_add]
    exact add_eq_some_iff.mpr ⟨_, _, hu.denote_eq hI point, ih hus, rfl⟩

end Term

end InfixAlgebra
