import InfixAlgebra.Proofs.Polynomial.Expansion

namespace InfixAlgebra

open Metered Exact

variable {I : Interpretation ℚ} {t r a b : Expr (Exact I)} {p q : MvPolynomial String ℚ}
  {x : String} {d k : ℕ}

theorem Exact.ofNat_eq_intCast (k : ℕ) : (Scalar.ofNat k : Exact I) = some ((k : ℤ) : ℚ) :=
  congrArg some (Int.cast_natCast k).symm

protected theorem Exact.div_one (x : Exact I) : x / 1 = x := by
  cases x with
  | none   => rfl
  | some a => exact div_eq_some_iff.mpr ⟨a, 1, rfl, rfl, one_ne_zero, div_one a⟩

namespace Expr

theorem Literal.natCast (k : ℕ) : Literal k (.number (Scalar.ofNat k) : Expr (Exact I)) := by
  rw [ofNat_eq_intCast]
  exact .number k

theorem Literal.eq_of_integerExponent? (hint : I.Integral) {k l : ℤ} (hb : Literal k b)
    (h : b.integerExponent? = some l) : l = k := by
  have hl : b.denote (valuesAt 0) = some (l : ℚ) := denote_of_integerExponent? hint h
  rw [hb.denote_eq] at hl
  exact (Int.cast_inj.mp (Option.some.inj hl)).symm

-- Fractions of polynomials have the denominator one.

theorem eq_of_denotes_one (h : (number 1 : Expr (Exact I)).Denotes p) : p = 1 := by
  change Denotes (.number (some 1)) p at h
  cases h
  exact map_one _

theorem Denotes.times (ha : a.Denotes p) (hb : b.Denotes q) : (times a b).Denotes (p * q) := by
  unfold Expr.times
  split
  case isTrue h =>
    rw [eq_of_isNumber h] at ha
    rw [eq_of_denotes_one ha, one_mul]
    exact hb
  case isFalse =>
    split
    case isTrue h =>
      rw [eq_of_isNumber h] at hb
      rw [eq_of_denotes_one hb, mul_one]
      exact ha
    case isFalse => exact .mul ha hb

theorem Denotes.raised (hx : IsVariable x) (k : ℕ) :
    (raised (.var x : Expr (Exact I)) k).Denotes (.X x ^ k) := by
  unfold Expr.raised
  split
  case isTrue h =>
    have hk : k = 1 := of_decide_eq_true ((Bool.or_eq_true_iff.mp h).resolve_right nofun)
    rw [hk, pow_one]
    exact .var hx
  case isFalse =>
    split
    case isTrue h =>
      rw [h, pow_zero, ← map_one MvPolynomial.C]
      exact .number 1
    case isFalse => exact .pow hx (.natCast k)

theorem isNumber_one : (number 1 : Expr (Exact I)).isNumber 1 :=
  Scalar.Regular.one_beq_one

theorem times_one : times (number 1) a = a :=
  if_pos isNumber_one

theorem raised_one (k : ℕ) : raised (number 1 : Expr (Exact I)) k = number 1 :=
  if_pos (Bool.or_eq_true_iff.mpr (.inr isNumber_one))

theorem quotient_one (t : Expr (Exact I)) : quotient t (number 1) = t := by
  have hfold : (fold? .div t (number 1)).getD t = t := by
    unfold fold?
    split
    case h_1 x y hy =>
      rw [← Expr.number.inj hy, Operator.apply, Exact.div_one]
      dsimp only
      split <;> rfl
    case h_2 => rfl
  unfold quotient
  rw [if_pos isNumber_one]
  exact hfold

structure SplitsPolynomial (t : Expr (Exact I)) (f : Fraction (Exact I)) : Prop where
  var     : ∀ x, t = .var x → f = ⟨t, .number 1⟩
  denotes : ∀ {p}, t.Denotes p → f.numerator.Denotes p ∧ f.denominator = .number 1

theorem cross_eq {f g : Fraction (Exact I)} (op : Operator) (hf : f.denominator = .number 1)
    (hg : g.denominator = .number 1) :
    fractionAt.cross op f g = ⟨.binary op f.numerator g.numerator, .number 1⟩ := by
  have hone : ((number 1 : Expr (Exact I)) == number 1) = true := by
    change ((1 : Exact I) == 1) = true
    exact Scalar.Regular.one_beq_one
  rw [fractionAt.cross, hf, hg, if_pos hone]

theorem splitsPolynomial_of_splitsTo (hint : I.Integral) {f : Fraction (Exact I)}
    (h : SplitsTo SplitsPolynomial t f) : SplitsPolynomial t f := by
  cases h with
  | whole     => exact ⟨fun _ _ => rfl, fun ht => ⟨ht, rfl⟩⟩
  | whole_pow => exact ⟨fun _ _ => rfl, fun ht => ⟨ht, rfl⟩⟩
  | neg ha =>
    refine ⟨nofun, fun ht => ?_⟩
    cases ht with
    | neg ht =>
      have ⟨ha, hone⟩ := ha.denotes ht
      exact ⟨.neg ha, hone⟩
  | sum ho ha hb =>
    rcases ho with rfl | rfl
    case inl =>
      refine ⟨nofun, fun ht => ?_⟩
      cases ht with
      | add hp hq =>
        have ⟨ha, hone⟩ := ha.denotes hp
        have ⟨hb, hone'⟩ := hb.denotes hq
        rw [cross_eq _ hone hone']
        exact ⟨.add ha hb, rfl⟩
    case inr =>
      refine ⟨nofun, fun ht => ?_⟩
      cases ht with
      | sub hp hq =>
        have ⟨ha, hone⟩ := ha.denotes hp
        have ⟨hb, hone'⟩ := hb.denotes hq
        rw [cross_eq _ hone hone']
        exact ⟨.sub ha hb, rfl⟩
  | mul ha hb =>
    refine ⟨nofun, fun ht => ?_⟩
    cases ht with
    | mul hp hq =>
      have ⟨ha, hone⟩ := ha.denotes hp
      have ⟨hb, hone'⟩ := hb.denotes hq
      rw [hone, hone', times_one]
      exact ⟨ha.times hb, rfl⟩
  | div => exact ⟨nofun, nofun⟩
  | pow hl hle ha =>
    refine ⟨nofun, fun ht => ?_⟩
    cases ht with
    | @pow x _ k hx hb =>
      rw [ha.var x rfl, hb.eq_of_integerExponent? hint hl, Int.natAbs_natCast, raised_one]
      exact ⟨.raised hx k, rfl⟩
  | inverse_pow hl hlt =>
    refine ⟨nofun, fun ht => ?_⟩
    cases ht with
    | pow hx hb =>
      have := hb.eq_of_integerExponent? hint hl
      omega

variable [NumberText (Exact I)]

-- The canonical forms of what polynomials are made of.

theorem eq_of_gives_canonicalAt_var (h : Gives ((var x).canonicalAt d) r) : r = .var x := by
  rw [canonicalAt] at h
  exact h.of_bind_unit.of_pure

theorem eq_of_gives_canonicalAt_number {y : Exact I} (h : Gives ((number y).canonicalAt d) r) :
    r = .number y := by
  rw [canonicalAt] at h
  exact h.of_bind_unit.of_pure

def KeepsNumber (t r : Expr (Exact I)) : Prop :=
  t.factors = [] → r = .number t.coefficient

theorem keepsNumber_of_multipliesTo (h : MultipliesTo (fun _ _ => True) t r) : KeepsNumber t r := by
  intro ht
  have hgroup : Power.group t.factors = [] := by
    rw [ht]
    rfl
  have hscales : ¬(Term.mk t.coefficient []).scalesSum := by simp [Term.scalesSum]
  cases h with
  | zero hz => rw [Exact.eq_of_beq hz]
  | sum _ hspread hf =>
    rw [hgroup] at hspread
    rw [eq_of_spreads hspread hscales] at hf
    cases hf
  | term _ hspread =>
    rw [hgroup] at hspread
    rw [eq_of_spreads hspread hscales]
    rfl

theorem keepsNumber_of_gives_product (h : Gives (product t) r) : KeepsNumber t r :=
  have ⟨n, _, hr⟩ := h.exists_of_bind
  product_induct (fun _ _ _ => trivial) (fun _ _ => keepsNumber_of_multipliesTo) n t r hr

theorem Literal.eq_of_gives_canonicalAt {k : ℤ} (hb : Literal k b) (h : Gives (b.canonicalAt d) r) :
    r = .number (some (k : ℚ)) := by
  cases hb with
  | number k => exact eq_of_gives_canonicalAt_number h
  | neg k =>
    rw [canonicalAt] at h
    obtain ⟨a, ha, hr⟩ := h.of_bind_unit.exists_of_bind
    rw [eq_of_gives_canonicalAt_number ha] at hr
    rw [keepsNumber_of_gives_product hr rfl]
    refine congrArg Expr.number (mul_eq_some_iff.mpr ⟨-1, k, rfl, rfl, ?_⟩)
    rw [Int.cast_neg, neg_one_mul]

theorem expanded_power (hx : IsVariable x) (k : ℕ) :
    (power (var x : Expr (Exact I)) (number (Scalar.ofNat k))).Expanded := by
  rcases Nat.lt_or_ge k 2 with hk | hk
  case inl =>
    unfold power
    split
    case isTrue => exact expanded_number nofun
    case isFalse hzero =>
      have hone : (number (Scalar.ofNat k) : Expr (Exact I)).isNumber 1 := by
        refine ofNat_beq_one_iff.mpr ?_
        have hk₀ : k ≠ 0 := by
          intro h
          exact hzero (Bool.or_eq_true_iff.mpr (.inl (ofNat_beq_zero_iff.mpr h)))
        omega
      rw [if_pos hone]
      exact expanded_of_isPower (.var hx)
  case inr =>
    rw [power_eq_pow (reducedPower_pow_var hk)]
    exact expanded_of_isPower (.pow hx hk)

theorem expanded_of_gives_canonicalAt_pow (hx : IsVariable x) (hb : Literal k b)
    (h : Gives ((pow (var x) b).canonicalAt d) r) : r.Expanded := by
  rw [canonicalAt] at h
  obtain ⟨a, ha, h₁⟩ := h.of_bind_unit.exists_of_bind
  obtain ⟨c, hc, h₂⟩ := h₁.exists_of_bind
  rw [h₂.of_pure, eq_of_gives_canonicalAt_var ha, hb.eq_of_gives_canonicalAt hc, ← ofNat_eq_intCast]
  exact expanded_power hx k

structure ExpandsPolynomial (t r : Expr (Exact I)) : Prop where
  var      : ∀ x, t = .var x → r = t
  expanded : ∀ {p}, t.Denotes p → r.Expanded

theorem expandsPolynomial_of_expandsTo {maxPower : ℕ}
    (h : ExpandsTo maxPower ExpandsProduct (fun t r => ∃ d, Gives (t.canonicalAt d) r) ExpandsSum
      (fun a b r => a.Expanded → b.Expanded → r.Expanded) ExpandsPolynomial t r) :
    ExpandsPolynomial t r := by
  cases h with
  | canonical hneg hbinary hr =>
    have ⟨d, hr⟩ := hr
    refine ⟨fun x hx => ?_, fun ht => ?_⟩
    · subst hx
      exact eq_of_gives_canonicalAt_var hr
    · cases ht with
      | number q => exact eq_of_gives_canonicalAt_number hr ▸ expanded_number nofun
      | var hx   => exact eq_of_gives_canonicalAt_var hr ▸ expanded_of_isPower (.var hx)
      | neg _    => exact absurd rfl (hneg _)
      | _        => exact absurd (hbinary _ _ _ rfl) (by decide)
  | neg ha hr =>
    refine ⟨nofun, fun ht => ?_⟩
    cases ht with
    | neg ht => exact (ha.expanded ht).of_neg hr
  | sum ho ha hb hr =>
    refine ⟨nofun, fun ht => ?_⟩
    cases ht with
    | add hp hq => exact (ha.expanded hp).of_sum (.inl rfl) (hb.expanded hq) hr
    | sub hp hq => exact (ha.expanded hp).of_sum (.inr rfl) (hb.expanded hq) hr
    | mul       => rcases ho with ho | ho <;> cases ho
    | pow       => rcases ho with ho | ho <;> cases ho
  | mul ha hb hr =>
    refine ⟨nofun, fun ht => ?_⟩
    cases ht with
    | mul hp hq => exact hr (ha.expanded hp) (hb.expanded hq)
  | pow ha hr _ =>
    refine ⟨nofun, fun ht => ?_⟩
    cases ht with
    | @pow x _ k hx hb =>
      have ⟨d, hr⟩ := hr
      rw [ha.var x rfl] at hr
      exact expanded_of_gives_canonicalAt_pow hx hb hr
  | pow_sum _ _ hs ha =>
    refine ⟨nofun, fun ht => ?_⟩
    cases ht with
    | @pow x _ k hx hb =>
      rw [ha.var x rfl] at hs
      cases hs

theorem expandsPolynomial_of_gives {maxPower : ℕ} (h : Gives (t.expandAt maxPower d) r) :
    ExpandsPolynomial t r :=
  expandAt_induct (fun _ _ => expandsSum_of_gives) (fun _ _ => expandsProduct_of_gives)
    (fun _ d _ h => ⟨d, h⟩)
    (fun _ _ _ h ha hb => ha.of_distributesTo hb (distributesTo_of_gives
      (fun _ _ => expandsSum_of_gives) (fun _ _ => expandsProduct_of_gives) h))
    (fun _ _ => expandsPolynomial_of_expandsTo) h

-- The rationalized form of a polynomial is multiplied out.
theorem expanded_of_rationalize (hint : I.Integral) {config : Config (Exact I)}
    (ht : t.Denotes p) (h : t.rationalize config = .ok r) : r.Expanded := by
  have ⟨f, n, e, hf, hn, he, hr⟩ := exists_of_rationalize h
  have hsplit : SplitsPolynomial t f :=
    fractionAt_induct (fun _ _ => splitsPolynomial_of_splitsTo hint) hf
  have ⟨hnum, hden⟩ := hsplit.denotes ht
  have hexp : n.Expanded := (expandsPolynomial_of_gives hn).expanded hnum
  rw [hden] at he
  have hone : e = .number 1 := eq_of_gives_canonicalAt_number he.of_bind_unit
  rw [hone] at hr
  cases reducesTo_of_gives (fun _ _ => expandsSum_of_gives) hr with
  | divided hx _ _ hne =>
    cases hx
    exact absurd Scalar.Regular.one_beq_one hne
  | quotient =>
    rw [quotient_one]
    exact hexp

end Expr

end InfixAlgebra
