import Mathlib
import InfixAlgebra.Expr.Derivative
import InfixAlgebra.Proofs.Canonical.Running

namespace InfixAlgebra

open Metered

namespace Expr

variable {α : Type} [Scalar α] {name : String} {R : Expr α → Expr α → Prop} {t r : Expr α}

inductive Derived (name : String) (R : Expr α → Expr α → Prop) : Expr α → Expr α → Prop
  | constant {t : Expr α} : ¬t.contains name → Derived name R t (number 0)
  | var : Derived name R (.var name) (number 1)
  | neg {a a' : Expr α} : R a a' → Derived name R (.neg a) (Folded.neg a')
  | add {a a' b b' : Expr α} : R a a' → R b b' → Derived name R (.add a b) (Folded.add a' b')
  | sub {a a' b b' : Expr α} : R a a' → R b b' → Derived name R (.sub a b) (Folded.sub a' b')
  | constant_mul {a b b' : Expr α} : ¬a.contains name → R b b' →
    Derived name R (.mul a b) (Folded.mul a b')
  | mul_constant {a a' b : Expr α} : ¬b.contains name → R a a' →
    Derived name R (.mul a b) (Folded.mul a' b)
  | mul {a a' b b' : Expr α} : R a a' → R b b' →
    Derived name R (.mul a b) (Folded.add (Folded.mul a' b) (Folded.mul a b'))
  | div_constant {a a' b : Expr α} : ¬b.contains name → R a a' →
    Derived name R (.div a b) (Folded.div a' b)
  | div {a a' b b' : Expr α} : R a a' → R b b' →
    Derived name R (.div a b)
      (Folded.div (Folded.sub (Folded.mul a' b) (Folded.mul a b'))
        (Folded.pow b (number (Scalar.ofNat 2))))
  | pow_constant {a a' b : Expr α} : ¬b.contains name → R a a' →
    Derived name R (.pow a b)
      (Folded.mul (Folded.mul b (Folded.pow a (Folded.sub b (number 1)))) a')
  | constant_pow {a b b' : Expr α} : ¬a.contains name → b.contains name → R b b' →
    Derived name R (.pow a b) (Folded.mul (Folded.mul (.pow a b) (Folded.log a)) b')
  | pow {a a' b b' : Expr α} : b.contains name → R a a' → R b b' →
    Derived name R (.pow a b)
      (Folded.mul (.pow a b)
        (Folded.add (Folded.mul b' (Folded.log a)) (Folded.div (Folded.mul b a') a)))
  | call {f : Elementary} {a a' : Expr α} : R a a' →
    Derived name R (.call f [a]) (Folded.mul (slope f a) a')

variable {d : Nat} {a b : Expr α}

def Follows (name : String) (R : Expr α → Expr α → Prop) (t : Expr α) : Prop :=
  ∀ {r d}, Gives (t.deriveAt name d) r → R t r

theorem eq_zero_of_gives_deriveAt (hc : ¬t.contains name) (h : Gives (t.deriveAt name d) r) :
    r = number 0 := by
  rw [deriveAt.eq_def] at h
  replace h := h.of_bind_unit
  rw [if_pos (by simpa using hc)] at h
  exact h.of_pure

theorem derived_var {x : String} (hc : (Expr.var x : Expr α).contains name)
    (h : Gives ((Expr.var x).deriveAt name d) r) : Derived name R (.var x) r := by
  have hx : x = name := beq_iff_eq.mp hc
  rw [deriveAt, hc] at h
  rw [h.of_bind_unit.of_pure, if_pos hx, hx]
  exact .var

theorem derived_neg (ha : Follows name R a) (hc : (Expr.neg a).contains name)
    (h : Gives ((Expr.neg a).deriveAt name d) r) : Derived name R (.neg a) r := by
  rw [deriveAt, hc] at h
  have ⟨a', h₁, hr⟩ := h.of_bind_unit.exists_of_bind
  exact hr.of_pure ▸ .neg (ha h₁)

theorem derived_add (ha : Follows name R a) (hb : Follows name R b)
    (hc : (Expr.add a b).contains name) (h : Gives ((Expr.add a b).deriveAt name d) r) :
    Derived name R (.add a b) r := by
  rw [deriveAt, hc] at h
  have ⟨a', h₁, h₂⟩ := h.of_bind_unit.exists_of_bind
  have ⟨b', h₂, hr⟩ := h₂.exists_of_bind
  exact hr.of_pure ▸ .add (ha h₁) (hb h₂)

theorem derived_sub (ha : Follows name R a) (hb : Follows name R b)
    (hc : (Expr.sub a b).contains name) (h : Gives ((Expr.sub a b).deriveAt name d) r) :
    Derived name R (.sub a b) r := by
  rw [deriveAt, hc] at h
  have ⟨a', h₁, h₂⟩ := h.of_bind_unit.exists_of_bind
  have ⟨b', h₂, hr⟩ := h₂.exists_of_bind
  exact hr.of_pure ▸ .sub (ha h₁) (hb h₂)

theorem derived_mul (ha : Follows name R a) (hb : Follows name R b)
    (hc : (Expr.mul a b).contains name) (h : Gives ((Expr.mul a b).deriveAt name d) r) :
    Derived name R (.mul a b) r := by
  rw [deriveAt, hc] at h
  replace h := h.of_bind_unit
  rw [if_neg nofun] at h
  split at h
  case isTrue hac =>
    have ⟨b', h₁, hr⟩ := h.exists_of_bind
    exact hr.of_pure ▸ .constant_mul (by simpa using hac) (hb h₁)
  case isFalse =>
    split at h
    case isTrue hbc =>
      have ⟨a', h₁, hr⟩ := h.exists_of_bind
      exact hr.of_pure ▸ .mul_constant (by simpa using hbc) (ha h₁)
    case isFalse =>
      have ⟨a', h₁, h₂⟩ := h.exists_of_bind
      have ⟨b', h₂, hr⟩ := h₂.exists_of_bind
      exact hr.of_pure ▸ .mul (ha h₁) (hb h₂)

theorem derived_div (ha : Follows name R a) (hb : Follows name R b)
    (hc : (Expr.div a b).contains name) (h : Gives ((Expr.div a b).deriveAt name d) r) :
    Derived name R (.div a b) r := by
  rw [deriveAt, hc] at h
  replace h := h.of_bind_unit
  rw [if_neg nofun] at h
  split at h
  case isTrue hbc =>
    have ⟨a', h₁, hr⟩ := h.exists_of_bind
    exact hr.of_pure ▸ .div_constant (by simpa using hbc) (ha h₁)
  case isFalse =>
    have ⟨a', h₁, h₂⟩ := h.exists_of_bind
    have ⟨b', h₂, hr⟩ := h₂.exists_of_bind
    exact hr.of_pure ▸ .div (ha h₁) (hb h₂)

theorem derived_pow (ha : Follows name R a) (hb : Follows name R b)
    (hc : (Expr.pow a b).contains name) (h : Gives ((Expr.pow a b).deriveAt name d) r) :
    Derived name R (.pow a b) r := by
  rw [deriveAt, hc] at h
  replace h := h.of_bind_unit
  rw [if_neg nofun] at h
  split at h
  case isTrue hbc =>
    have ⟨a', h₁, hr⟩ := h.exists_of_bind
    exact hr.of_pure ▸ .pow_constant (by simpa using hbc) (ha h₁)
  case isFalse hbc =>
    have hbc : b.contains name := by simpa using hbc
    split at h
    case isTrue hac =>
      have ⟨b', h₁, hr⟩ := h.exists_of_bind
      exact hr.of_pure ▸ .constant_pow (by simpa using hac) hbc (hb h₁)
    case isFalse =>
      have ⟨b', h₁, h₂⟩ := h.exists_of_bind
      have ⟨a', h₂, hr⟩ := h₂.exists_of_bind
      exact hr.of_pure ▸ .pow hbc (ha h₂) (hb h₁)

theorem derived_call {f : Elementary} {args : List (Expr α)}
    (hargs : ∀ a ∈ args, Follows name R a) (hc : (Expr.call f args).contains name)
    (h : Gives ((Expr.call f args).deriveAt name d) r) : Derived name R (.call f args) r := by
  by_cases hone : ∃ a, args = [a]
  case pos =>
    obtain ⟨a, rfl⟩ := hone
    rw [deriveAt, hc] at h
    have ⟨a', h₁, hr⟩ := h.of_bind_unit.exists_of_bind
    exact hr.of_pure ▸ .call (hargs a List.mem_cons_self h₁)
  case neg =>
    rw [deriveAt, hc] at h
    · exact absurd h.of_bind_unit not_gives_throw
    · exact fun a ha => hone ⟨a, ha⟩

-- What each rule preserves holds of all derivatives.
theorem deriveAt_induct (hstep : ∀ t r, Derived name R t r → R t r)
    (h : Gives (t.deriveAt name d) r) : R t r := by
  induction t generalizing d r with
  | number x =>
    have hc : ¬(Expr.number x).contains name := Bool.false_ne_true
    exact eq_zero_of_gives_deriveAt hc h ▸ hstep _ _ (.constant hc)
  | constant c =>
    have hc : ¬(Expr.constant c : Expr α).contains name := Bool.false_ne_true
    exact eq_zero_of_gives_deriveAt hc h ▸ hstep _ _ (.constant hc)
  | var x =>
    by_cases hc : (Expr.var x : Expr α).contains name
    case neg => exact eq_zero_of_gives_deriveAt hc h ▸ hstep _ _ (.constant hc)
    case pos => exact hstep _ _ (derived_var hc h)
  | neg a ih =>
    by_cases hc : (Expr.neg a).contains name
    case neg => exact eq_zero_of_gives_deriveAt hc h ▸ hstep _ _ (.constant hc)
    case pos => exact hstep _ _ (derived_neg ih hc h)
  | binary op a b iha ihb =>
    by_cases hc : (Expr.binary op a b).contains name
    case neg => exact eq_zero_of_gives_deriveAt hc h ▸ hstep _ _ (.constant hc)
    case pos =>
      refine hstep _ _ ?_
      cases op with
      | add => exact derived_add iha ihb hc h
      | sub => exact derived_sub iha ihb hc h
      | mul => exact derived_mul iha ihb hc h
      | div => exact derived_div iha ihb hc h
      | pow => exact derived_pow iha ihb hc h
  | call f args ih =>
    by_cases hc : (Expr.call f args).contains name
    case neg => exact eq_zero_of_gives_deriveAt hc h ▸ hstep _ _ (.constant hc)
    case pos => exact hstep _ _ (derived_call ih hc h)

variable {config : Config α}

theorem differentiate_of_lt (name : String) (h : config.maxDepth < t.depth) :
    t.differentiate config name = .error (.tooDeep config.maxDepth) := by
  unfold differentiate checkDepth
  simp [h]
  rfl

theorem differentiate_of_le (name : String) (h : t.depth ≤ config.maxDepth) :
    t.differentiate config name = (t.deriveAt name 1).run config.toLimits := by
  unfold differentiate checkDepth
  simp [Nat.not_lt.mpr h]

theorem differentiate_induct (hstep : ∀ t r, Derived name R t r → R t r)
    (h : t.differentiate config name = .ok r) : R t r := by
  unfold differentiate at h
  have ⟨_, _, hr⟩ := exists_of_bind_eq_ok h
  exact deriveAt_induct hstep (gives_of_run hr)

end Expr

end InfixAlgebra
