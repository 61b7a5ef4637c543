import InfixAlgebra.Proofs.Canonical.Equality
import InfixAlgebra.Proofs.Canonical.Merging
import InfixAlgebra.Proofs.Canonical.Sorting
import InfixAlgebra.Proofs.Normal.Regular

namespace InfixAlgebra

variable {α : Type} [Scalar α] [NumberText α]

def Expr.sortKey (t : Expr α) : SortKey :=
  ⟨t.rank, t.render⟩

structure Grouped (fs : List (Expr α)) : Prop where
  distinct : Power.merging.Distinct (fs.map Power.ofExpr)
  ordered  : SortKey.Ordered Expr.sortKey fs

theorem Grouped.of_append {fs gs : List (Expr α)} (h : Grouped (fs ++ gs)) : Grouped fs where
  distinct := by
    have hd := h.distinct
    rw [List.map_append] at hd
    exact (List.pairwise_append.mp hd).1
  ordered  := h.ordered.left_of_append

-- A product that no rule changes, its factors apart. A sum is a factor of it only next to other
-- factors and without a number, or else the number goes into the sum.
structure Term.Reduced (u : Term α) : Prop where
  nonzero : ¬u.coefficient == 0
  sums    : ∀ f ∈ u.factors, f.isSum → u.coefficient == 1 ∧ 1 < u.factors.length
  grouped : Grouped u.factors

theorem Term.Reduced.not_scalesSum {u : Term α} (h : u.Reduced) : ¬u.scalesSum := by
  intro hs
  simp only [scalesSum, Bool.and_eq_true, Bool.not_eq_true', List.any_eq_true] at hs
  obtain ⟨f, hf, hsum⟩ := hs.2
  rw [(h.sums f hf hsum).1] at hs
  cases hs.1.1

theorem Term.Reduced.not_isSum {u : Term α} (h : u.Reduced) {s : Expr α} (hs : u.factors = [s]) :
    ¬s.isSum := by
  intro hsum
  have hlength := (h.sums s (hs ▸ List.mem_singleton_self s) hsum).2
  rw [hs] at hlength
  exact absurd hlength (Nat.lt_irrefl 1)

namespace Expr

structure ReducedProduct (t : Expr α) : Prop where
  reduced : (Term.ofExpr t).Reduced
  written : (Term.ofExpr t).toExpr = t

-- A sum that no rule changes, its terms apart: what has the same factors has been merged, and no
-- number stands next to a sum.
structure ReducedSum (t : Expr α) : Prop where
  nonzero  : ∀ u ∈ t.scaledTerms 1, ¬u.coefficient == 0
  unscaled : ∀ u ∈ t.scaledTerms 1, ¬u.scalesSum
  distinct : Term.merging.Distinct (t.scaledTerms 1)
  written  : Term.sumOf (t.scaledTerms 1) = t

-- No number results.

structure ReducedQuotient (a b : Expr α) : Prop where
  unfolded : fold? .div a b = none
  divisor  : ¬b.isNumber 1
  dividend : a.isNumber 0 → b.isNumber 0
  distinct : a == b → a.number?.isSome

structure ReducedPower (a b : Expr α) : Prop where
  unfolded : fold? .pow a b = none
  base     : ¬a.isNumber 1
  nonzero  : ¬b.isNumber 0
  exponent : ¬b.isNumber 1

def ReducedCall (f : Elementary) (args : List (Expr α)) : Prop :=
  ∀ x, args = [.number x] → ¬Scalar.isFinite (Scalar.elementary f x)

inductive Normal : Expr α → Prop
  | number (x : α) : Normal (.number x)
  | constant (c : Constant) : Normal (.constant c)
  | var (name : String) : Normal (.var name)
  | neg {a : Expr α} : Normal a → ReducedProduct (.neg a) → Normal (.neg a)
  | mul {a b : Expr α} : Normal a → Normal b → ReducedProduct (.mul a b) → Normal (.mul a b)
  | add {a b : Expr α} : Normal a → Normal b → ReducedSum (.add a b) → Normal (.add a b)
  | sub {a b : Expr α} : Normal a → Normal b → ReducedSum (.sub a b) → Normal (.sub a b)
  | div {a b : Expr α} : Normal a → Normal b → ReducedQuotient a b → Normal (.div a b)
  | pow {a b : Expr α} : Normal a → Normal b → ReducedPower a b → Normal (.pow a b)
  | call {f : Elementary} {args : List (Expr α)} :
    (∀ a ∈ args, Normal a) → ReducedCall f args → Normal (.call f args)

variable {t f a b : Expr α} {fs : List (Expr α)}

theorem Normal.sum {op : Operator} (ho : op = .add ∨ op = .sub) (ha : a.Normal) (hb : b.Normal)
    (hr : (binary op a b).ReducedSum) : (binary op a b).Normal := by
  cases ho with
  | inl h => subst h; exact .add ha hb hr
  | inr h => subst h; exact .sub ha hb hr

theorem Normal.of_mem_factors (h : t.Normal) (hf : f ∈ t.factors) : f.Normal := by
  induction h with
  | number x         => cases hf
  | neg _ _ ih       => exact ih hf
  | mul _ _ _ ia ib  => exact (List.mem_append.mp hf).elim ia ib
  | add ha hb hr     => rw [List.mem_singleton.mp hf]; exact .add ha hb hr
  | sub ha hb hr     => rw [List.mem_singleton.mp hf]; exact .sub ha hb hr
  | constant c       => rw [List.mem_singleton.mp hf]; exact .constant c
  | var name         => rw [List.mem_singleton.mp hf]; exact .var name
  | div ha hb hr     => rw [List.mem_singleton.mp hf]; exact .div ha hb hr
  | pow ha hb hr     => rw [List.mem_singleton.mp hf]; exact .pow ha hb hr
  | call hargs hr    => rw [List.mem_singleton.mp hf]; exact .call hargs hr

theorem Normal.exponent_ne {x : α} (h : (Expr.pow a (.number x)).Normal) : ¬x == 0 ∧ ¬x == 1 := by
  cases h with
  | pow _ _ hr => exact ⟨hr.nonzero, hr.exponent⟩

omit [NumberText α] in
theorem exists_of_exponent (f : Expr α) :
    (∃ a x, f = .pow a (.number x)) ∨ Power.ofExpr f = ⟨f, 1⟩ := by
  unfold Power.ofExpr
  split
  case h_1 a x => exact .inl ⟨a, x, rfl⟩
  case h_2     => exact .inr rfl

end Expr

open Scalar.Regular

variable [Scalar.Regular α] {f : Expr α} {fs : List (Expr α)}

-- A factor is the power that it is taken for.
theorem Power.toExpr_ofExpr (h : f.Normal) :
    (ofExpr f).toExpr = f ∧ ¬(ofExpr f).exponent == 0 := by
  cases f.exists_of_exponent with
  | inl h' =>
    have ⟨a, x, ha⟩ := h'
    subst ha
    exact ⟨if_neg h.exponent_ne.2, h.exponent_ne.1⟩
  | inr h' =>
    rw [h']
    exact ⟨if_pos one_beq_one, not_one_beq_zero⟩

-- Where no two factors have the same base, grouping sorts them.
theorem Power.group_eq_sort (hfs : ∀ f ∈ fs, f.Normal)
    (hd : merging.Distinct (fs.map ofExpr)) : group fs = SortKey.sort Expr.sortKey fs := by
  have hnonzero : nonzero (fs.map ofExpr) = fs.map ofExpr := by
    refine List.filter_eq_self.mpr fun p hp => ?_
    have ⟨f, hf, hfp⟩ := List.mem_map.mp hp
    rw [← hfp]
    simpa using (toExpr_ofExpr (hfs f hf)).2
  have hmap : (fs.map ofExpr).map toExpr = fs := by
    rw [List.map_map]
    exact (List.map_congr_left fun f hf => (toExpr_ofExpr (hfs f hf)).1).trans (List.map_id fs)
  rw [group_eq, mergeAll_eq, Merging.addAll_nil hd, hnonzero, hmap]
  rfl

end InfixAlgebra
