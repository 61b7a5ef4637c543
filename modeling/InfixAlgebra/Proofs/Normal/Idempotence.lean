import InfixAlgebra.Proofs.Double.Regular
import InfixAlgebra.Proofs.Normal.Fixed
import InfixAlgebra.Proofs.Normal.Products

namespace InfixAlgebra

open Merging

namespace Expr

variable {α : Type} [Scalar α] {t r a b a' b' : Expr α}

theorem exists_of_fold? {op : Operator} (h : fold? op a b = some r) : ∃ x, r = number x := by
  unfold fold? at h
  split at h
  case h_1 =>
    dsimp only at h
    split at h
    case isTrue  => exact ⟨_, (Option.some_inj.mp h).symm⟩
    case isFalse => cases h
  case h_2 => cases h

-- Quotients, powers and calls either remain what they are or nothing but an operand or a number is
-- left of them.

theorem quotient_cases (a b : Expr α) :
    ReducedQuotient a b ∧ quotient a b = .div a b ∨ quotient a b = a ∨
      ∃ x, quotient a b = number x := by
  unfold quotient
  cases hf : fold? .div a b with
  | some r => exact .inr (.inr (exists_of_fold? hf))
  | none =>
    rw [Option.getD_none]
    split
    case isTrue => exact .inr (.inl rfl)
    case isFalse hone =>
      split
      case isTrue => exact .inr (.inr ⟨0, rfl⟩)
      case isFalse hzero =>
        split
        case isTrue => exact .inr (.inr ⟨1, rfl⟩)
        case isFalse hne =>
          refine .inl ⟨⟨hf, hone, fun ha => ?_, fun hab => ?_⟩, rfl⟩
          · simpa [ha] using hzero
          · simpa [hab, Option.isSome_iff_ne_none] using hne

theorem power_cases (a b : Expr α) :
    ReducedPower a b ∧ power a b = .pow a b ∨ b.isNumber 1 ∧ power a b = a ∨
      ∃ x, power a b = number x := by
  unfold power
  split
  case isTrue => exact .inr (.inr ⟨1, rfl⟩)
  case isFalse hne =>
    rw [Bool.or_eq_true, not_or] at hne
    split
    case isTrue hone => exact .inr (.inl ⟨hone, rfl⟩)
    case isFalse hone =>
      cases hf : fold? .pow a b with
      | some r => exact .inr (.inr (exists_of_fold? hf))
      | none   => exact .inl ⟨⟨hf, hne.2, hne.1, hone⟩, rfl⟩

theorem application_cases (f : Elementary) (args : List (Expr α)) :
    ReducedCall f args ∧ application f args = .call f args ∨
      ∃ x, application f args = number x := by
  unfold application
  split
  case h_1 x =>
    dsimp only
    split
    case isTrue => exact .inr ⟨_, rfl⟩
    case isFalse hf =>
      refine .inl ⟨fun y hy => ?_, rfl⟩
      cases hy
      exact hf
  case h_2 hne => exact .inl ⟨fun x hx => absurd hx (hne x), rfl⟩

variable [NumberText α]

-- Rewriting makes nothing heavier, and what it does not make lighter is in normal form afterwards.
-- Numbers remain numbers, which counts for exponents.
structure Lightens (t r : Expr α) : Prop where
  le     : r.weight ≤ t.weight
  normal : t.weight ≤ r.weight → r.Normal
  number : ∀ x, t = .number x → r = t

theorem Lightens.nodeWeight_le (h : Lightens b b') (op : Operator) :
    nodeWeight op b' ≤ nodeWeight op b := by
  cases op with
  | pow =>
    cases b with
    | number x => exact h.number x rfl ▸ Nat.le_refl _
    | _        => unfold nodeWeight; split <;> first | exact Nat.zero_le _ | decide
  | _ => exact Nat.le_refl _

theorem lightens_args {args args' : List (Expr α)} (h : List.Forall₂ Lightens args args') :
    weightOfAll args' ≤ weightOfAll args ∧
      (weightOfAll args ≤ weightOfAll args' → ∀ a ∈ args', a.Normal) := by
  induction h with
  | nil => exact ⟨Nat.le_refl _, nofun⟩
  | @cons t r ts rs h _ ih =>
    have hle := h.le
    rw [weightOfAll, weightOfAll]
    refine ⟨by omega, fun hw => ?_⟩
    exact List.forall_mem_cons.mpr ⟨h.normal (by omega), ih.2 (by omega)⟩

theorem lightens_number (x : α) (ht : ∀ y, t ≠ .number y) : Lightens t (.number x) where
  le          := Nat.zero_le _
  normal _    := .number x
  number y hy := absurd hy (ht y)

theorem lightens_quotient (ha : Lightens a a') (hb : Lightens b b') :
    Lightens (.div a b) (quotient a' b') := by
  have hale := ha.le
  have hble := hb.le
  rcases quotient_cases a' b' with ⟨hreduced, hr⟩ | hr | ⟨x, hr⟩
  case inl =>
    rw [hr]
    refine ⟨by simp only [weight, nodeWeight]; omega, fun hw => ?_, nofun⟩
    simp only [weight, nodeWeight] at hw
    exact .div (ha.normal (by omega)) (hb.normal (by omega)) hreduced
  case inr.inl =>
    rw [hr]
    refine ⟨by simp only [weight, nodeWeight]; omega, fun hw => ?_, nofun⟩
    simp only [weight, nodeWeight] at hw
    omega
  case inr.inr => exact hr ▸ lightens_number x nofun

theorem lightens_power (ha : Lightens a a') (hb : Lightens b b') :
    Lightens (.pow a b) (power a' b') := by
  have hale := ha.le
  have hble := hb.le
  have hnode := hb.nodeWeight_le .pow
  rcases power_cases a' b' with ⟨hreduced, hr⟩ | ⟨_, hr⟩ | ⟨x, hr⟩
  case inl =>
    rw [hr]
    refine ⟨by simp only [weight]; omega, fun hw => ?_, nofun⟩
    simp only [weight] at hw
    exact .pow (ha.normal (by omega)) (hb.normal (by omega)) hreduced
  case inr.inl =>
    rw [hr]
    have hpos : 0 < nodeWeight .pow b := by cases b <;> exact Nat.succ_pos _
    refine ⟨by simp only [weight]; omega, fun hw => ?_, nofun⟩
    simp only [weight] at hw
    omega
  case inr.inr => exact hr ▸ lightens_number x nofun

theorem lightens_application {f : Elementary} {args args' : List (Expr α)}
    (h : List.Forall₂ Lightens args args') : Lightens (.call f args) (application f args') := by
  have ⟨hle, hnormal⟩ := lightens_args h
  rcases application_cases f args' with ⟨hreduced, hr⟩ | ⟨x, hr⟩
  case inl =>
    rw [hr]
    refine ⟨by simp only [weight]; omega, fun hw => ?_, nofun⟩
    simp only [weight] at hw
    exact .call (hnormal (by omega)) hreduced
  case inr => exact hr ▸ lightens_number x nofun

theorem lightens_mul (ha : Lightens a a') (hb : Lightens b b')
    (hr : LightensProduct (.mul a' b') r) : Lightens (.mul a b) r := by
  have hale := ha.le
  have hble := hb.le
  obtain ⟨hle, hnormal⟩ := hr
  simp only [weight, nodeWeight] at hle hnormal
  refine ⟨by simp only [weight, nodeWeight]; omega, fun hw => ?_, fun _ h => by cases h⟩
  simp only [weight, nodeWeight] at hw
  refine hnormal (List.forall_mem_append.mpr ⟨fun f hf => ?_, fun f hf => ?_⟩) (by omega)
  · exact (ha.normal (by omega)).of_mem_factors hf
  · exact (hb.normal (by omega)).of_mem_factors hf

theorem composed_of_parts {op : Operator} (ho : op = .add ∨ op = .sub) (ha : a.Normal)
    (hb : b.Normal) : ∀ u ∈ (binary op a b).scaledTerms 1, u.Composed := by
  cases ho with
  | inl h =>
    subst h
    rw [scaledTerms, List.forall_mem_append]
    exact ⟨ha.composed, hb.composed⟩
  | inr h =>
    subst h
    rw [scaledTerms, List.forall_mem_append]
    exact ⟨ha.composed, hb.composed⟩

theorem lightens_sum {op : Operator} (ho : op = .add ∨ op = .sub) (ha : Lightens a a')
    (hb : Lightens b b') (hr : LightensSum [(1, .binary op a' b')] r) :
    Lightens (.binary op a b) r := by
  have hs : (binary op a' b').isSum := by cases ho with | inl h | inr h => subst h; rfl
  have ⟨hle, hnormal⟩ := hr _ _ rfl (factors_of_isSum hs) hs
  have hr := @weight_le_factorWeight α r
  have hale := ha.le
  have hble := hb.le
  rw [weight_sum ho] at hle hnormal
  refine ⟨by rw [weight_sum ho]; omega, fun hw => ?_, nofun⟩
  rw [weight_sum ho] at hw
  exact hnormal (composed_of_parts ho (ha.normal (by omega)) (hb.normal (by omega))) (by omega)

theorem lightens_of_becomes (h : Becomes LightensProduct LightensSum Lightens t r) :
    Lightens t r := by
  cases h with
  | number x         => exact ⟨Nat.le_refl _, fun _ => .number x, fun _ _ => rfl⟩
  | constant c       => exact ⟨Nat.le_refl _, fun _ => .constant c, nofun⟩
  | var name         => exact ⟨Nat.le_refl _, fun _ => .var name, nofun⟩
  | neg ha hr =>
    refine ⟨hr.1.trans ha.le, fun hw => hr.2 ?_ (ha.le.trans hw), nofun⟩
    exact fun f hf => (ha.normal (hw.trans hr.1)).of_mem_factors hf
  | sum ho ha hb hr  => exact lightens_sum ho ha hb hr
  | mul ha hb hr     => exact lightens_mul ha hb hr
  | div ha hb        => exact lightens_quotient ha hb
  | pow ha hb        => exact lightens_power ha hb
  | call hargs       => exact lightens_application hargs

variable [Scalar.Regular α]

theorem lightens_canonical {config : Config α} (h : t.canonical config = .ok r) :
    Lightens t r :=
  canonical_induct (fun _ _ => lightensSum_of_sumsTo) (fun _ _ => lightensProduct_of_multipliesTo)
    (fun _ _ => lightens_of_becomes) h

-- The expressions in normal form are those that are their own canonical forms.
theorem canonical_eq_self_iff {config : Config α}
    (h : t.canonical config = .ok r) : r = t ↔ t.Normal where
  mp hr  := hr ▸ (lightens_canonical h).normal (hr ▸ Nat.le_refl _)
  mpr ht := canonical_of_normal h ht

-- Every round of simplification that does not end in a normal form makes an expression lighter, so
-- there are not many of them.
theorem exists_normal_of_rounds {config : Config α} {ts : Nat → Expr α}
    (h : ∀ n, (ts n).canonical config = .ok (ts (n + 1))) :
    ∃ n ≤ (ts 0).weight + 1, (ts n).Normal := by
  generalize hw : (ts 0).weight = w
  induction w using Nat.strong_induction_on generalizing ts with
  | h w ih =>
    have hfirst := lightens_canonical (h 0)
    by_cases hn : (ts 1).Normal
    case pos => exact ⟨1, Nat.le_add_left .., hn⟩
    case neg =>
      have hlt : (ts 1).weight < w := hw ▸ Nat.lt_of_not_le fun hle => hn (hfirst.normal hle)
      have ⟨n, hle, hn⟩ := @ih _ hlt (fun n => ts (n + 1)) (fun n => h (n + 1)) rfl
      exact ⟨n + 1, by omega, hn⟩

-- Simplifying once more changes nothing if and only if the first result is in normal form, and this
-- it is unless it is lighter than the expression that it comes from.
theorem canonical_canonical_eq_iff {config : Config Float} {t s s₂ : Expr Float}
    (h : t.canonical config = .ok s) (h₂ : s.canonical config = .ok s₂) :
    (s₂ = s ↔ s.Normal) ∧ (s₂ ≠ s → s.weight < t.weight) := by
  have hiff := canonical_eq_self_iff h₂
  refine ⟨hiff, fun hne => Nat.lt_of_not_le fun hle => hne (hiff.mpr ?_)⟩
  exact (lightens_canonical h).normal hle

-- Like terms are merged once and for all.
theorem canonical_canonical_eq_iff_of_like_terms :
    let x : Expr Float := .var "x"
    let t := add (mul (.number 2) x) (mul (.number 3) x)
    let s := mul (.number 5) x
    t.canonical .standard = .ok s ∧ s.canonical .standard = .ok s ∧ s.Normal := by
  intro x t s
  have h : t.canonical .standard = .ok s := by decide +kernel
  have h₂ : s.canonical .standard = .ok s := by decide +kernel
  exact ⟨h, h₂, (canonical_canonical_eq_iff h h₂).1.mp rfl⟩

-- Two powers of `x * y` cancel down to an exponent of one. The product that was the base is a
-- factor then, and what it is made of is not merged with the other factors.
theorem canonical_canonical_ne_of_exposed_base :
    let x : Expr Float := .var "x"
    let y : Expr Float := .var "y"
    let t := mul (mul x (pow (mul x y) (.number 2))) (pow (mul x y) (.neg (.number 1)))
    let s := mul x (mul x y)
    let s₂ := mul (pow x (.number 2)) y
    t.canonical .standard = .ok s ∧ s.canonical .standard = .ok s₂ ∧ s₂ ≠ s := by
  decide +kernel

end Expr

end InfixAlgebra
