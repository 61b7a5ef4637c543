import Mathlib
import InfixAlgebra.Expr.Parser
import InfixAlgebra.Proofs.Exact.Arithmetic
import InfixAlgebra.Proofs.Exact.Denotation
import InfixAlgebra.Proofs.Normal.Products

namespace InfixAlgebra

open Merging Scalar.Regular

section Regular

variable {K : Type} [Field K] [LinearOrder K] {I : Interpretation K}

namespace Exact

theorem beq_self {x : Exact I} (h : x ≠ none) : x == x := by
  cases x with
  | none   => exact absurd rfl h
  | some a => exact decide_eq_true rfl

theorem one_ne_none : (1 : Exact I) ≠ none :=
  Option.some_ne_none 1

theorem neg_ne_none {x : Exact I} (hx : x ≠ none) : -x ≠ none :=
  fun h => hx (Option.map_eq_none_iff.mp h)

theorem add_ne_none {x y : Exact I} (hx : x ≠ none) (hy : y ≠ none) : x + y ≠ none := by
  cases x <;> cases y <;> first | contradiction | nofun

theorem mul_ne_none {x y : Exact I} (hx : x ≠ none) (hy : y ≠ none) : x * y ≠ none := by
  cases x <;> cases y <;> first | contradiction | nofun

theorem ofNat_add (m n : ℕ) : (Scalar.ofNat m + Scalar.ofNat n : Exact I) = Scalar.ofNat (m + n) :=
  congrArg some (Nat.cast_add m n).symm

theorem ofNat_one : (Scalar.ofNat 1 : Exact I) = 1 :=
  congrArg some Nat.cast_one

theorem ofNat_beq_zero_iff [CharZero K] {n : ℕ} : (Scalar.ofNat n : Exact I) == 0 ↔ n = 0 :=
  decide_eq_true_iff.trans Nat.cast_eq_zero

theorem ofNat_beq_one_iff [CharZero K] {n : ℕ} : (Scalar.ofNat n : Exact I) == 1 ↔ n = 1 :=
  decide_eq_true_iff.trans Nat.cast_eq_one

end Exact

instance [IsStrictOrderedRing K] : Scalar.Regular (Exact I) where
  one_mul_eq x        := one_mul x
  neg_one_mul_neg x   := by rw [Exact.neg_mul, one_mul, Exact.neg_neg]
  beq_comm x y        := by
    cases x <;> cases y <;> first | rfl | exact Bool.decide_congr eq_comm
  eq_one h            := Exact.eq_of_beq h
  eq_neg_one h        := Exact.eq_of_beq h
  one_beq_one         := decide_eq_true rfl
  not_one_beq_zero h  := one_ne_zero (of_decide_eq_true h)
  not_one_lt_zero h   := not_lt_of_gt one_pos (of_decide_eq_true h)
  not_neg_beq_zero {x} hlt h := by
    cases x with
    | none   => cases hlt
    | some a =>
      have ha : a < 0 := of_decide_eq_true hlt
      exact ha.ne (neg_eq_zero.mp (of_decide_eq_true h))

end Regular

def IsVariable (name : String) : Prop :=
  isVariableName name ∧ name ≠ Constant.e.name

variable {I : Interpretation ℚ}

namespace Power

inductive Positive : Power (Exact I) → Prop
  | mk {x : String} {k : ℕ} : IsVariable x → 0 < k → Positive ⟨.var x, Scalar.ofNat k⟩

variable {p q : Power (Exact I)}

theorem Positive.exponent_ne_zero (h : p.Positive) : ¬p.exponent == 0 := by
  cases h with
  | mk _ hk => exact fun h => hk.ne' (Exact.ofNat_beq_zero_iff.mp h)

theorem Positive.join (hq : q.Positive) (hp : p.Positive) (h : merging.alike q p) :
    (merging.join q p).Positive := by
  cases hq with
  | @mk x k hx hk =>
    cases hp with
    | @mk y l _ _ =>
      simp only [merging, Exact.ofNat_add]
      exact .mk hx (Nat.add_pos_left hk l)

end Power

namespace Expr

inductive IsPower : Expr (Exact I) → Prop
  | var {x : String} : IsVariable x → IsPower (.var x)
  | pow {x : String} {k : ℕ} : IsVariable x → 2 ≤ k →
    IsPower (.pow (.var x) (.number (Scalar.ofNat k)))

variable {f : Expr (Exact I)}

theorem IsPower.isAtom (h : f.IsPower) : f.isAtom := by
  cases h <;> rfl

theorem IsPower.not_isSum (h : f.IsPower) : ¬f.isSum := by
  cases h <;> exact Bool.false_ne_true

theorem IsPower.positive_ofExpr (h : f.IsPower) : (Power.ofExpr f).Positive := by
  cases h with
  | var hx    =>
    rw [Power.ofExpr, ← Exact.ofNat_one]
    · exact .mk hx Nat.one_pos
    · nofun
  | pow hx hk => exact .mk hx (by omega)

theorem IsPower.beq_self (h : f.IsPower) : f == f := by
  cases h with
  | var hx    => exact beq_self_eq_true (_ : String)
  | pow hx hk =>
    refine Bool.and_eq_true_iff.mpr ⟨Bool.and_eq_true_iff.mpr ⟨rfl, ?_⟩, decide_eq_true rfl⟩
    exact beq_self_eq_true (_ : String)

theorem reducedPower_pow_var {x : String} {k : ℕ} (hk : 2 ≤ k) :
    ReducedPower (.var x : Expr (Exact I)) (.number (Scalar.ofNat k)) where
  unfolded   := rfl
  base       := Bool.false_ne_true
  nonzero h  := by
    have := Exact.ofNat_beq_zero_iff.mp h
    omega
  exponent h := by
    have := Exact.ofNat_beq_one_iff.mp h
    omega

end Expr

namespace Power

variable {p : Power (Exact I)}

theorem Positive.isPower_toExpr (h : p.Positive) : p.toExpr.IsPower := by
  cases h with
  | @mk x k hx hk =>
    unfold toExpr
    split
    case isTrue => exact .var hx
    case isFalse hone =>
      have hk' : k ≠ 1 := fun h => hone (Exact.ofNat_beq_one_iff.mpr h)
      exact .pow hx (by omega)

theorem Positive.ofExpr_toExpr (h : p.Positive) : ofExpr p.toExpr = p := by
  cases h with
  | @mk x k hx hk =>
    unfold toExpr
    split
    case isTrue hone => exact congrArg (Power.mk _) (Exact.eq_of_beq hone).symm
    case isFalse     => rfl

end Power

variable [NumberText (Exact I)]

theorem Expr.IsPower.normal {f : Expr (Exact I)} (h : f.IsPower) : f.Normal := by
  cases h with
  | var hx    => exact .var _
  | pow hx hk => exact .pow (.var _) (.number _) (reducedPower_pow_var hk)

theorem Expr.IsPower.toExpr_ofExpr {f : Expr (Exact I)} (h : f.IsPower) :
    (Power.ofExpr f).toExpr = f :=
  (Power.toExpr_ofExpr h.normal).1

namespace Power

variable {fs : List (Expr (Exact I))}

-- Grouping leaves one power of each variable.
theorem grouped_group_of_isPower (hfs : ∀ f ∈ fs, f.IsPower) :
    Grouped (group fs) ∧ ∀ f ∈ group fs, f.IsPower := by
  have hps : ∀ p ∈ merging.addAll [] (fs.map ofExpr), p.Positive := by
    refine forall_addAll (fun q p h hq hp => hq.join hp h) nofun fun p hp => ?_
    have ⟨f, hf, hfp⟩ := List.mem_map.mp hp
    exact hfp ▸ (hfs f hf).positive_ofExpr
  have hd : merging.Distinct (merging.addAll [] (fs.map ofExpr)) :=
    distinct_addAll stable_merging .nil
  have hgroup : group fs =
      SortKey.sort Expr.sortKey ((nonzero (merging.addAll [] (fs.map ofExpr))).map toExpr) := by
    rw [group_eq, mergeAll_eq]
    rfl
  generalize merging.addAll [] (fs.map ofExpr) = ps at hps hd hgroup
  have hnonzero : nonzero ps = ps :=
    List.filter_eq_self.mpr fun p hp => by simpa using (hps p hp).exponent_ne_zero
  have hmap : (ps.map toExpr).map ofExpr = ps := by
    rw [List.map_map]
    exact (List.map_congr_left fun p hp => (hps p hp).ofExpr_toExpr).trans (List.map_id ps)
  rw [hnonzero] at hgroup
  rw [hgroup]
  refine ⟨grouped_sort (by rwa [hmap]), fun f hf => ?_⟩
  have ⟨p, hp, hpf⟩ := List.mem_map.mp ((SortKey.perm_sort ..).mem_iff.mp hf)
  exact hpf ▸ (hps p hp).isPower_toExpr

end Power

namespace Term

structure Monomial (u : Term (Exact I)) : Prop where
  defined : u.coefficient ≠ none
  powers  : ∀ f ∈ u.factors, f.IsPower
  grouped : Grouped u.factors

variable {u v : Term (Exact I)}

theorem Monomial.join (hv : v.Monomial) (hu : u.Monomial) : (merging.join v u).Monomial :=
  ⟨Exact.add_ne_none hv.defined hu.defined, hv.powers, hv.grouped⟩

theorem Monomial.not_scalesSum (h : u.Monomial) : ¬u.scalesSum := by
  intro hs
  simp only [scalesSum, Bool.and_eq_true, List.any_eq_true] at hs
  obtain ⟨f, hf, hsum⟩ := hs.2
  exact (h.powers f hf).not_isSum hsum

theorem Monomial.settled (h : u.Monomial) (hne : ¬u.coefficient == 0) : u.Settled where
  reduced := ⟨hne, fun f hf hsum => absurd hsum (h.powers f hf).not_isSum, h.grouped⟩
  factors := fun f hf => ⟨(h.powers f hf).isAtom, (h.powers f hf).normal⟩

end Term

end InfixAlgebra
