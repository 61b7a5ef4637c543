import Mathlib
import InfixAlgebra.Expr.Fraction
import InfixAlgebra.Proofs.Canonical.Running

namespace InfixAlgebra

open Metered

namespace Expr

variable {α : Type} [Scalar α] {t r a b : Expr α} {d : Nat}

theorem natAbs_lt_of_integerExponent? {k : Int} (h : b.integerExponent? = some k) :
    k.natAbs < 2 ^ 31 := by
  have hfits {l : Option Int}
      (h : l.bind (fun m => if m.natAbs < Nat.pow 2 31 then some m else none) = some k) :
      k.natAbs < 2 ^ 31 := by
    have ⟨m, _, hk⟩ := Option.bind_eq_some_iff.mp h
    have ⟨hlt, hm⟩ := Option.ite_none_right_eq_some.mp hk
    exact Option.some.inj hm ▸ hlt
  unfold integerExponent? at h
  split at h <;> exact hfits h

omit [Scalar α] in
theorem addends_of_not_isSum (p : Bool) (ht : ¬t.isSum) : t.addends p = [(p, t)] := by
  unfold addends
  split
  case h_1 => exact absurd rfl ht
  case h_2 => exact absurd rfl ht
  case h_3 => rfl

inductive SplitsTo (F : Expr α → Fraction α → Prop) : Expr α → Fraction α → Prop
  | whole {t : Expr α} : (∀ a, t ≠ .neg a) → (∀ op a b, t ≠ .binary op a b) →
    SplitsTo F t ⟨t, .number 1⟩
  | whole_pow {a b : Expr α} : b.integerExponent? = none →
    SplitsTo F (.pow a b) ⟨.pow a b, .number 1⟩
  | neg {a : Expr α} {f : Fraction α} : F a f →
    SplitsTo F (.neg a) ⟨.neg f.numerator, f.denominator⟩
  | sum {op : Operator} {a b : Expr α} {f g : Fraction α} (ho : op = .add ∨ op = .sub) :
    F a f → F b g → SplitsTo F (.binary op a b) (fractionAt.cross op f g)
  | mul {a b : Expr α} {f g : Fraction α} : F a f → F b g →
    SplitsTo F (.mul a b)
      ⟨times f.numerator g.numerator, times f.denominator g.denominator⟩
  | div {a b : Expr α} {f g : Fraction α} : F a f → F b g →
    SplitsTo F (.div a b)
      ⟨times f.numerator g.denominator, times f.denominator g.numerator⟩
  | pow {a b : Expr α} {f : Fraction α} {k : Int} : b.integerExponent? = some k → 0 ≤ k → F a f →
    SplitsTo F (.pow a b) ⟨raised f.numerator k.natAbs, raised f.denominator k.natAbs⟩
  | inverse_pow {a b : Expr α} {f : Fraction α} {k : Int} : b.integerExponent? = some k → k < 0 →
    F a f → SplitsTo F (.pow a b) ⟨raised f.denominator k.natAbs, raised f.numerator k.natAbs⟩

-- What each way of splitting preserves holds of all fractions.
theorem fractionAt_induct {F : Expr α → Fraction α → Prop} {f : Fraction α}
    (hstep : ∀ t f, SplitsTo F t f → F t f) (h : Gives (t.fractionAt d) f) : F t f := by
  induction t generalizing d f with
  | number x   => exact h.of_bind_unit.of_pure ▸ hstep _ _ (.whole nofun nofun)
  | constant c => exact h.of_bind_unit.of_pure ▸ hstep _ _ (.whole nofun nofun)
  | var name   => exact h.of_bind_unit.of_pure ▸ hstep _ _ (.whole nofun nofun)
  | call g args _ => exact h.of_bind_unit.of_pure ▸ hstep _ _ (.whole nofun nofun)
  | neg a ih =>
    rw [fractionAt] at h
    have ⟨f, hf, hr⟩ := h.of_bind_unit.exists_of_bind
    exact hr.of_pure ▸ hstep _ _ (.neg (ih hf))
  | binary op a b iha ihb =>
    refine hstep _ _ ?_
    cases op with
    | add =>
      rw [fractionAt] at h
      have ⟨f, hf, h₁⟩ := h.of_bind_unit.exists_of_bind
      have ⟨g, hg, hr⟩ := h₁.exists_of_bind
      exact hr.of_pure ▸ .sum (.inl rfl) (iha hf) (ihb hg)
    | sub =>
      rw [fractionAt] at h
      have ⟨f, hf, h₁⟩ := h.of_bind_unit.exists_of_bind
      have ⟨g, hg, hr⟩ := h₁.exists_of_bind
      exact hr.of_pure ▸ .sum (.inr rfl) (iha hf) (ihb hg)
    | mul =>
      rw [fractionAt] at h
      have ⟨f, hf, h₁⟩ := h.of_bind_unit.exists_of_bind
      have ⟨g, hg, hr⟩ := h₁.exists_of_bind
      exact hr.of_pure ▸ .mul (iha hf) (ihb hg)
    | div =>
      rw [fractionAt] at h
      have ⟨f, hf, h₁⟩ := h.of_bind_unit.exists_of_bind
      have ⟨g, hg, hr⟩ := h₁.exists_of_bind
      exact hr.of_pure ▸ .div (iha hf) (ihb hg)
    | pow =>
      rw [fractionAt] at h
      replace h := h.of_bind_unit
      split at h
      case h_1 hk => exact h.of_pure ▸ .whole_pow hk
      case h_2 k hk =>
        have ⟨f, hf, hr⟩ := h.exists_of_bind
        split at hr
        case isTrue hle  => exact hr.of_pure ▸ .pow hk hle (iha hf)
        case isFalse hlt => exact hr.of_pure ▸ .inverse_pow hk (Int.not_le.mp hlt) (iha hf)

variable [NumberText α] {Q C R : Expr α → Expr α → Prop} {S : List (α × Expr α) → Expr α → Prop}
  {D : Expr α → Expr α → Expr α → Prop} {maxPower : Nat}

inductive DistributesTo (Q : Expr α → Expr α → Prop) (S : List (α × Expr α) → Expr α → Prop)
    (a b : Expr α) : Expr α → Prop
  | product {r : Expr α} : ¬a.isSum → ¬b.isSum → Q (.mul a b) r → DistributesTo Q S a b r
  | sum {products : List (α × Expr α)} {r : Expr α} :
    List.Forall₂ (fun (s, t) p => p.1 = sign (s.1 == t.1) ∧ Q (.mul s.2 t.2) p.2)
      (a.addends true ×ˢ b.addends true) products →
    S products r → DistributesTo Q S a b r

theorem distributesTo_of_gives (hsum : ∀ addends r, Gives (sum addends) r → S addends r)
    (hproduct : ∀ t r, Gives (product t) r → Q t r) (h : Gives (distribute a b) r) :
    DistributesTo Q S a b r := by
  unfold distribute at h
  split at h
  case isTrue hab =>
    simp only [Bool.and_eq_true, Bool.not_eq_true', ← Bool.not_eq_true] at hab
    exact .product hab.1 hab.2 (hproduct _ _ h)
  case isFalse =>
    have ⟨products, hp, hr⟩ := h.of_bind_unit.exists_of_bind
    refine .sum (hp.of_mapM.imp fun st p hst => ?_) (hsum _ _ hr)
    have ⟨q, hq, hpure⟩ := hst.exists_of_bind
    rw [hpure.of_pure]
    exact ⟨rfl, hproduct _ _ hq⟩

inductive DistributesTimes (D : Expr α → Expr α → Expr α → Prop) (a : Expr α) :
    Nat → Expr α → Expr α → Prop
  | zero (t : Expr α) : DistributesTimes D a 0 t t
  | succ {n : Nat} {t s r : Expr α} : D t a s → DistributesTimes D a n s r →
    DistributesTimes D a (n + 1) t r

theorem distributesTimes_of_gives (hD : ∀ a b r, Gives (distribute a b) r → D a b r) {n : Nat}
    (h : Gives (distributeTimes a n t) r) : DistributesTimes D a n t r := by
  induction n generalizing t with
  | zero      => rw [h.of_pure]; exact .zero t
  | succ n ih =>
    have ⟨s, hs, hr⟩ := h.exists_of_bind
    exact .succ (hD _ _ _ hs) (ih hr)

-- How an expression is expanded whose parts are expanded as `R` says, if `C` says what canonical
-- forms are and `D` what products multiplied out are. Of the powers of sums, those with an exponent
-- above `maxPower` are left.
inductive ExpandsTo (maxPower : Nat) (Q C : Expr α → Expr α → Prop)
    (S : List (α × Expr α) → Expr α → Prop) (D : Expr α → Expr α → Expr α → Prop)
    (R : Expr α → Expr α → Prop) : Expr α → Expr α → Prop
  | canonical {t r : Expr α} : (∀ a, t ≠ .neg a) → (∀ op a b, t = .binary op a b → op = .div) →
    C t r → ExpandsTo maxPower Q C S D R t r
  | neg {a a' r : Expr α} : R a a' → Q (.neg a') r → ExpandsTo maxPower Q C S D R (.neg a) r
  | sum {op : Operator} {a a' b b' r : Expr α} (ho : op = .add ∨ op = .sub) : R a a' → R b b' →
    S [(1, .binary op a' b')] r → ExpandsTo maxPower Q C S D R (.binary op a b) r
  | mul {a a' b b' r : Expr α} : R a a' → R b b' → D a' b' r →
    ExpandsTo maxPower Q C S D R (.mul a b) r
  | pow {a a' b r : Expr α} : R a a' → C (.pow a' b) r →
    (∀ k, b.integerExponent? = some k → a'.isSum → 2 ≤ k → maxPower < k) →
    ExpandsTo maxPower Q C S D R (.pow a b) r
  | pow_sum {a a' b r : Expr α} {k : Int} : b.integerExponent? = some k → 2 ≤ k → a'.isSum →
    R a a' → DistributesTimes D a' (k.toNat - 1) a' r → ExpandsTo maxPower Q C S D R (.pow a b) r

-- What each way of expanding preserves holds of all expansions.
theorem expandAt_induct (hsum : ∀ addends r, Gives (sum addends) r → S addends r)
    (hproduct : ∀ t r, Gives (product t) r → Q t r)
    (hcanonical : ∀ t d r, Gives (t.canonicalAt d) r → C t r)
    (hdistribute : ∀ a b r, Gives (distribute a b) r → D a b r)
    (hstep : ∀ t r, ExpandsTo maxPower Q C S D R t r → R t r) (h : Gives (t.expandAt maxPower d) r) :
    R t r := by
  induction t generalizing d r with
  | number x   => exact hstep _ _ (.canonical nofun nofun (hcanonical _ _ _ h.of_bind_unit))
  | constant c => exact hstep _ _ (.canonical nofun nofun (hcanonical _ _ _ h.of_bind_unit))
  | var name   => exact hstep _ _ (.canonical nofun nofun (hcanonical _ _ _ h.of_bind_unit))
  | call g args _ => exact hstep _ _ (.canonical nofun nofun (hcanonical _ _ _ h.of_bind_unit))
  | neg a ih =>
    rw [expandAt] at h
    have ⟨a', ha, hr⟩ := h.of_bind_unit.exists_of_bind
    exact hstep _ _ (.neg (ih ha) (hproduct _ _ hr))
  | binary op a b iha ihb =>
    refine hstep _ _ ?_
    cases op with
    | add =>
      rw [expandAt] at h
      have ⟨a', ha, h₁⟩ := h.of_bind_unit.exists_of_bind
      have ⟨b', hb, hr⟩ := h₁.exists_of_bind
      exact .sum (.inl rfl) (iha ha) (ihb hb) (hsum _ _ hr)
    | sub =>
      rw [expandAt] at h
      have ⟨a', ha, h₁⟩ := h.of_bind_unit.exists_of_bind
      have ⟨b', hb, hr⟩ := h₁.exists_of_bind
      exact .sum (.inr rfl) (iha ha) (ihb hb) (hsum _ _ hr)
    | mul =>
      rw [expandAt] at h
      have ⟨a', ha, h₁⟩ := h.of_bind_unit.exists_of_bind
      have ⟨b', hb, hr⟩ := h₁.exists_of_bind
      exact .mul (iha ha) (ihb hb) (hdistribute _ _ _ hr)
    | div =>
      refine .canonical nofun ?_ (hcanonical _ _ _ h.of_bind_unit)
      rintro _ _ _ ⟨⟩
      rfl
    | pow =>
      rw [expandAt] at h
      have ⟨a', ha, hr⟩ := h.of_bind_unit.exists_of_bind
      split at hr
      case h_1 k hk =>
        split at hr
        case isTrue hpow =>
          simp only [Bool.and_eq_true, decide_eq_true_eq] at hpow
          exact .pow_sum hk hpow.1.2 hpow.1.1 (iha ha) (distributesTimes_of_gives hdistribute hr)
        case isFalse hpow =>
          refine .pow (iha ha) (hcanonical _ _ _ hr) fun l hl hs hle => ?_
          rw [hk, Option.some_inj] at hl
          subst hl
          simp only [hs, Bool.true_and, Bool.and_eq_true, decide_eq_true_eq] at hpow
          omega
      case h_2 hk =>
        refine .pow (iha ha) (hcanonical _ _ _ hr) fun l hl => ?_
        rw [hk] at hl
        cases hl

inductive ReducesTo (S : List (α × Expr α) → Expr α → Prop) (f : Fraction α) : Expr α → Prop
  | divided {x : α} {addends : List (α × Expr α)} {r : Expr α} :
    f.denominator = .number x → Scalar.isFinite x → ¬x == 0 → ¬x == 1 →
    f.numerator.divideCoefficients? x = some addends → S addends r → ReducesTo S f r
  | quotient : ReducesTo S f (quotient f.numerator f.denominator)

theorem reducesTo_of_gives (hsum : ∀ addends r, Gives (sum addends) r → S addends r)
    {f : Fraction α} (h : Gives (reduce f) r) : ReducesTo S f r := by
  unfold reduce at h
  split at h
  case h_1 x hx =>
    split at h
    case isTrue hcond =>
      simp only [Bool.and_eq_true, Bool.not_eq_true', ← Bool.not_eq_true] at hcond
      split at h
      case h_1 addends ha =>
        exact .divided hx hcond.1.1 hcond.1.2 hcond.2 ha (hsum _ _ h)
      case h_2 => exact h.of_pure ▸ .quotient
    case isFalse => exact h.of_pure ▸ .quotient
  case h_2 => exact h.of_pure ▸ .quotient

-- The three steps of a rationalization.
theorem exists_of_rationalize {config : Config α} (h : t.rationalize config = .ok r) :
    ∃ f n d, Gives (t.fractionAt 1) f ∧ Gives (f.numerator.expandAt config.maxExpandPower 1) n ∧
      Gives (f.denominator.expandAt config.maxExpandPower 1) d ∧ Gives (reduce ⟨n, d⟩) r := by
  have ⟨f, hf, h₁⟩ := (gives_of_run h).exists_of_bind
  have ⟨n, hn, h₂⟩ := h₁.exists_of_bind
  have ⟨d, hd, hr⟩ := h₂.exists_of_bind
  exact ⟨f, n, d, hf, hn, hd, hr⟩

end Expr

end InfixAlgebra
