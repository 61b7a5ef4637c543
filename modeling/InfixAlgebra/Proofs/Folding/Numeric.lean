import InfixAlgebra.Proofs.Evaluation.Outcome
import InfixAlgebra.Proofs.Normal.Idempotence
import InfixAlgebra.Proofs.Normal.Kinds

namespace InfixAlgebra

open Scalar.Regular

-- The laws of numbers under which folding computes what evaluation does. What is equal may still
-- differ in the sign of a zero, and no operation with a finite result tells it apart.
class Scalar.Congruent (α : Type) [Scalar α] : Prop extends Scalar.Regular α where
  neg_one_mul_eq (x : α) : -1 * x = -x
  add_neg (x y : α) : x + -y = x - y
  pow_zero (x : α) : Scalar.pow x 0 = 1
  pow_one (x : α) : Scalar.pow x 1 = x
  one_pow (x : α) : Scalar.pow 1 x = 1
  beq_self {x : α} : Scalar.isFinite x → x == x
  beq_trans {x y z : α} : Scalar.isFinite x → x == y → y == z → x == z
  isFinite_of_beq {x y : α} : Scalar.isFinite x → x == y → Scalar.isFinite y
  neg_beq_neg {x x' : α} : Scalar.isFinite (-x) → x == x' → -x == -x'
  apply_beq_apply (op : Operator) {x x' y y' : α} : Scalar.isFinite (op.apply x y) → x == x' →
    y == y' → op.apply x y == op.apply x' y'
  elementary_beq_elementary (f : Elementary) {x x' : α} : Scalar.isFinite (Scalar.elementary f x) →
    x == x' → Scalar.elementary f x == Scalar.elementary f x'

open Scalar.Congruent

variable {α : Type} [Scalar α]

namespace Expr

inductive Numeric : Expr α → Prop
  | number (x : α) : Numeric (.number x)
  | neg {a : Expr α} : Numeric a → Numeric (.neg a)
  | binary (op : Operator) {a b : Expr α} : Numeric a → Numeric b → Numeric (.binary op a b)
  | call (f : Elementary) {a : Expr α} : Numeric a → Numeric (.call f [a])

-- What an expression evaluates to where limits are no obstacle.
def Evaluates (t : Expr α) (v : α) : Prop :=
  ∀ (config : Config α) (scope : Scope α), t.depth ≤ config.maxDepth →
    t.size ≤ config.maxOperations → t.evaluate config scope = .ok (.scalar v)

variable {t r a b : Expr α} {v w : α}

theorem Evaluates.unique (hv : t.Evaluates v) (hw : t.Evaluates w) : v = w := by
  let config : Config α := ⟨⟨t.depth, t.size⟩, 0, 0, 0⟩
  have hvalue := hv config ⟨[]⟩ (Nat.le_refl _) (Nat.le_refl _)
  rw [hw config ⟨[]⟩ (Nat.le_refl _) (Nat.le_refl _)] at hvalue
  cases hvalue
  rfl

def value (t : Expr α) : α :=
  t.scalarValue fun _ => 0

omit [Scalar α] in
theorem Numeric.madeOf (h : t.Numeric) : t.MadeOf .singleCalls := by
  induction h with
  | number x              => exact .number trivial
  | neg _ ih              => exact .neg ih
  | binary op _ _ iha ihb => exact .binary op iha ihb
  | call f _ ih           => exact .call f rfl (List.forall_mem_singleton.mpr ih)

omit [Scalar α] in
theorem Numeric.not_contains (h : t.Numeric) (name : String) : t.contains name = false := by
  induction h with
  | number x              => rfl
  | neg _ ih              => exact ih
  | binary op _ _ iha ihb => rw [contains, iha, ihb, Bool.or_self]
  | call f _ ih           => rw [contains, anyContains, anyContains, ih, Bool.or_self]

-- Without variables it makes no difference what is bound.
theorem Numeric.evaluateAt_eq (h : t.Numeric) (scope scope' : Scope α) (depth : Nat) :
    t.evaluateAt scope depth = t.evaluateAt scope' depth := by
  induction h generalizing depth with
  | number x              => rw [evaluateAt, evaluateAt]
  | neg _ ih              => rw [evaluateAt, evaluateAt, ih]
  | binary op _ _ iha ihb => rw [evaluateAt, evaluateAt, iha, ihb]
  | call f _ ih           => rw [evaluateAt, evaluateAt, ih]

theorem Numeric.evaluates (h : t.Numeric) : t.Evaluates t.value := by
  intro config scope hdepth hsize
  have hscope : ∀ name v, (⟨[]⟩ : Scope α).find? name = some v → v = .scalar 0 := nofun
  have hwalks : Walks config.toLimits ⟨[]⟩ _ _ (Value.scalar t.value) :=
    walks_evaluateAt h.madeOf hscope 1
  have hnone : firstObstacle? config.toLimits ⟨[]⟩ 1 (t.nodesAt 1) = none :=
    firstObstacle?_nodesAt_eq_none_iff.mpr ⟨hdepth, hsize, fun name hname => by
      rw [h.not_contains name] at hname
      cases hname⟩
  have hrun : t.evaluate config scope =
      (·.1) <$> (ReaderT.run (t.evaluateAt ⟨[]⟩ 1) config.toLimits).run 0 := by
    rw [h.evaluateAt_eq ⟨[]⟩ scope]
    rfl
  rw [hrun, hwalks 0, hnone]
  rfl

omit [Scalar α] in
theorem Numeric.of_mem_nodesAt {depth : Nat} (h : t.Numeric) :
    ∀ v ∈ t.nodesAt depth, v.2.Numeric := by
  induction h generalizing depth with
  | number x => exact List.forall_mem_singleton.mpr (.number x)
  | neg ha ih =>
    rw [nodesAt, List.forall_mem_cons]
    exact ⟨.neg ha, ih⟩
  | binary op ha hb iha ihb =>
    rw [nodesAt, List.forall_mem_cons, List.forall_mem_append]
    exact ⟨.binary op ha hb, iha, ihb⟩
  | call f ha ih =>
    rw [nodesAt, List.forall_mem_cons, nodesOfAllAt_eq, List.flatMap_singleton]
    exact ⟨.call f ha, ih⟩

inductive Finite : Expr α → Prop
  | number {x : α} : Scalar.isFinite x → Finite (.number x)
  | neg {a : Expr α} : Finite a → Scalar.isFinite (-a.value) → Finite (.neg a)
  | binary (op : Operator) {a b : Expr α} : Finite a → Finite b →
    Scalar.isFinite (op.apply a.value b.value) → Finite (.binary op a b)
  | call (f : Elementary) {a : Expr α} : Finite a → Scalar.isFinite (Scalar.elementary f a.value) →
    Finite (.call f [a])

theorem Finite.isFinite_value (h : t.Finite) : Scalar.isFinite t.value := by
  cases h with
  | number h       => exact h
  | neg _ h        => exact h
  | binary _ _ _ h => exact h
  | call _ _ h     => exact h

theorem Numeric.finite {depth : Nat} (ht : t.Numeric)
    (h : ∀ v ∈ t.nodesAt depth, Scalar.isFinite v.2.value) : t.Finite := by
  induction ht generalizing depth with
  | number x => exact .number (h _ List.mem_cons_self)
  | neg ha ih =>
    rw [nodesAt, List.forall_mem_cons] at h
    exact .neg (ih h.2) h.1
  | binary op ha hb iha ihb =>
    rw [nodesAt, List.forall_mem_cons, List.forall_mem_append] at h
    exact .binary op (iha h.2.1) (ihb h.2.2) h.1
  | call f ha ih =>
    rw [nodesAt, List.forall_mem_cons, nodesOfAllAt_eq, List.flatMap_singleton] at h
    exact .call f (ih h.2) h.1

-- What becomes of products and sums of numbers, and of numeric expressions.

def FoldsProduct (t r : Expr α) : Prop :=
  t.factors = [] → Scalar.isFinite t.coefficient → ∃ n, r = number n ∧ t.coefficient == n

def FoldsSum (addends : List (α × Expr α)) (r : Expr α) : Prop :=
  ∀ op x y, op = .add ∨ op = .sub → addends = [(1, binary op (number x) (number y))] →
    Scalar.isFinite (op.apply x y) → ∃ n, r = number n ∧ op.apply x y == n

def Folds (t r : Expr α) : Prop :=
  t.Finite → ∃ n, r = number n ∧ t.value == n

variable [Scalar.Congruent α]

-- Two numbers are one term.
theorem mergeAll_numbers {op : Operator} (ho : op = .add ∨ op = .sub) (x y : α) :
    Term.mergeAll [] (scaledTermsOfAll [(1, binary op (number x) (number y))]) =
      [⟨op.apply x y, []⟩] := by
  have hnumber (scale x : α) : (number x).scaledTerms scale = [⟨scale * (1 * x), []⟩] :=
    scaledTerms_of_factors_ne nofun
  rcases ho with rfl | rfl
  case inl =>
    have hterms : scaledTermsOfAll [(1, add (number x) (number y))] = [⟨x, []⟩, ⟨y, []⟩] := by
      simp only [scaledTermsOfAll, List.flatMap_singleton, scaledTerms, hnumber, one_mul_eq,
        List.singleton_append]
    rw [hterms]
    rfl
  case inr =>
    have hterms : scaledTermsOfAll [(1, sub (number x) (number y))] = [⟨x, []⟩, ⟨-y, []⟩] := by
      simp only [scaledTermsOfAll, List.flatMap_singleton, scaledTerms, hnumber, one_mul_eq,
        neg_one_mul_eq, List.singleton_append]
    rw [hterms]
    exact congrArg (fun z => [Term.mk z []]) (add_neg x y)

-- What quotients, powers and calls of numbers are folded into.

theorem quotient_number {x y : α} (h : Scalar.isFinite (x / y)) :
    ∃ n, quotient (number x) (number y) = number n ∧ x / y == n := by
  have hfold : fold? .div (number x) (number y) = some (number (x / y)) := if_pos h
  refine ⟨x / y, ?_, beq_self h⟩
  rw [quotient, hfold, Option.getD_some]

theorem power_number {x y : α} (hx : Scalar.isFinite x) (h : Scalar.isFinite (Scalar.pow x y)) :
    ∃ n, power (number x) (number y) = number n ∧ Scalar.pow x y == n := by
  unfold power
  split
  case isTrue hunit =>
    refine ⟨1, rfl, ?_⟩
    cases Bool.or_eq_true_iff.mp hunit with
    | inl hy =>
      have hpow : Scalar.pow x y == Scalar.pow x 0 := apply_beq_apply .pow h (beq_self hx) hy
      rwa [Scalar.Congruent.pow_zero] at hpow
    | inr hone =>
      rw [eq_one hone, Scalar.Congruent.one_pow]
      exact one_beq_one
  case isFalse =>
    split
    case isTrue hy =>
      have hone : y = 1 := eq_one hy
      rw [hone, Scalar.Congruent.pow_one]
      exact ⟨x, rfl, beq_self hx⟩
    case isFalse =>
      have hfold : fold? .pow (number x) (number y) = some (number (Scalar.pow x y)) := if_pos h
      rw [hfold, Option.getD_some]
      exact ⟨_, rfl, beq_self h⟩

theorem application_number {f : Elementary} {x : α} (h : Scalar.isFinite (Scalar.elementary f x)) :
    ∃ n, application f [number x] = number n ∧ Scalar.elementary f x == n :=
  ⟨_, if_pos h, beq_self h⟩

-- What is computed from equal numbers is equal.
theorem exists_of_folds {a b a' b' : Expr α} (op : Operator) (ha : Folds a a') (hb : Folds b b')
    (hfa : a.Finite) (hfb : b.Finite) (hfinite : Scalar.isFinite (op.apply a.value b.value)) :
    ∃ x y, a' = number x ∧ b' = number y ∧ Scalar.isFinite x ∧
      op.apply a.value b.value == op.apply x y ∧ Scalar.isFinite (op.apply x y) := by
  obtain ⟨x, rfl, hx⟩ := ha hfa
  obtain ⟨y, rfl, hy⟩ := hb hfb
  have hequal := apply_beq_apply op hfinite hx hy
  exact ⟨x, y, rfl, rfl, isFinite_of_beq hfa.isFinite_value hx, hequal,
    isFinite_of_beq hfinite hequal⟩

-- The number that the operands are folded into is equal to their value.
theorem folds_of_becomes (h : Becomes FoldsProduct FoldsSum Folds t r) : Folds t r := by
  intro ht
  have hvalue := ht.isFinite_value
  cases h with
  | number x => exact ⟨x, rfl, beq_self hvalue⟩
  | constant => cases ht
  | var      => cases ht
  | @neg a a' _ ha hr =>
    cases ht with
    | neg hfa hfinite =>
      obtain ⟨x, rfl, hx⟩ := ha hfa
      have hequal : -a.value == -x := neg_beq_neg hfinite hx
      have hcoefficient : (Expr.neg (number x)).coefficient = -x := neg_one_mul_eq x
      have ⟨n, hn, hxn⟩ := hr rfl (hcoefficient ▸ isFinite_of_beq hfinite hequal)
      rw [hcoefficient] at hxn
      exact ⟨n, hn, beq_trans hvalue hequal hxn⟩
  | @sum op a _ b _ _ ho ha hb hr =>
    cases ht with
    | binary _ hfa hfb hfinite =>
      obtain ⟨x, y, rfl, rfl, _, hequal, hxy⟩ := exists_of_folds op ha hb hfa hfb hfinite
      have ⟨n, hn, hxn⟩ := hr op x y ho rfl hxy
      exact ⟨n, hn, beq_trans hvalue hequal hxn⟩
  | mul ha hb hr =>
    cases ht with
    | binary _ hfa hfb hfinite =>
      obtain ⟨x, y, rfl, rfl, _, hequal, hxy⟩ := exists_of_folds .mul ha hb hfa hfb hfinite
      have hcoefficient : (Expr.mul (number x) (number y)).coefficient = x * y :=
        congrArg (· * y) (one_mul_eq x)
      have ⟨n, hn, hxn⟩ := hr rfl (hcoefficient ▸ hxy)
      rw [hcoefficient] at hxn
      exact ⟨n, hn, beq_trans hvalue hequal hxn⟩
  | div ha hb =>
    cases ht with
    | binary _ hfa hfb hfinite =>
      obtain ⟨x, y, rfl, rfl, _, hequal, hxy⟩ := exists_of_folds .div ha hb hfa hfb hfinite
      have ⟨n, hn, hxn⟩ := quotient_number hxy
      exact ⟨n, hn, beq_trans hvalue hequal hxn⟩
  | pow ha hb =>
    cases ht with
    | binary _ hfa hfb hfinite =>
      obtain ⟨x, y, rfl, rfl, hx, hequal, hxy⟩ := exists_of_folds .pow ha hb hfa hfb hfinite
      have ⟨n, hn, hxn⟩ := power_number hx hxy
      exact ⟨n, hn, beq_trans hvalue hequal hxn⟩
  | @call f _ _ hargs =>
    cases ht with
    | @call _ a hfa hfinite =>
      obtain ⟨a', rfl⟩ : ∃ a', _ = [a'] := List.length_eq_one_iff.mp hargs.length_eq.symm
      obtain ⟨x, rfl, hx⟩ := (List.forall₂_cons.mp hargs).1 hfa
      have hequal := elementary_beq_elementary f hfinite hx
      have ⟨n, hn, hxn⟩ := application_number (isFinite_of_beq hfinite hequal)
      exact ⟨n, hn, beq_trans hvalue hequal hxn⟩

variable [NumberText α]

theorem foldsSum_of_sumsTo {Q : Expr α → Expr α → Prop} {addends : List (α × Expr α)}
    (h : SumsTo Q addends r) : FoldsSum addends r := by
  rintro op x y ho rfl hfinite
  obtain ⟨terms, hsettles, rfl⟩ := h
  rw [mergeAll_numbers ho] at hsettles
  generalize op.apply x y = z at *
  have hunscaled : ∀ u ∈ [(⟨z, []⟩ : Term α)], ¬u.scalesSum := by
    simp [Term.scalesSum]
  obtain rfl := Term.eq_kept_of_settles hsettles hunscaled
  by_cases hz : z == 0
  case pos => exact ⟨0, by simp [Term.kept, Term.nonzero, hz, Term.sumOf, SortKey.sort], hz⟩
  case neg =>
    refine ⟨z, ?_, beq_self hfinite⟩
    simp [Term.kept, Term.nonzero, hz, Term.sumOf, SortKey.sort, SortKey.sort.insert,
      Term.scalesSum, Term.toExpr]

theorem foldsProduct_of_multipliesTo {S : List (α × Expr α) → Expr α → Prop}
    (h : MultipliesTo S t r) : FoldsProduct t r := by
  intro hnil hfinite
  have hgroup : Power.group t.factors = t.factors := by
    rw [hnil]
    rfl
  have hscales : ¬(Term.ofExpr t).scalesSum := by
    simp [Term.scalesSum, Term.ofExpr, hnil]
  obtain ⟨hz, rfl⟩ | ⟨hne, ⟨s, hs, _⟩ | ⟨_, rfl⟩⟩ := h.cases_of_group hgroup hscales
  · exact ⟨0, rfl, hz⟩
  · rw [hnil] at hs
    cases hs
  · refine ⟨t.coefficient, ?_, beq_self hfinite⟩
    rw [Term.toExpr, Term.ofExpr, hnil]

-- The canonical form of an expression of numbers is the number that evaluation gives.
theorem Numeric.exists_evaluates {config : Config α} (ht : t.Numeric)
    (hfinite : ∀ v ∈ t.nodesAt 1, ∃ x, v.2.Evaluates x ∧ Scalar.isFinite x)
    (h : t.canonical config = .ok r) : ∃ n v, r = .number n ∧ t.Evaluates v ∧ n == v := by
  have hvalues : ∀ v ∈ t.nodesAt 1, Scalar.isFinite v.2.value := by
    intro v hv
    have ⟨x, hx, hfx⟩ := hfinite v hv
    rwa [(ht.of_mem_nodesAt v hv).evaluates.unique hx]
  have ⟨n, hn, hvalue⟩ := canonical_induct (fun _ _ => foldsSum_of_sumsTo)
    (fun _ _ => foldsProduct_of_multipliesTo) (fun _ _ => folds_of_becomes) h (ht.finite hvalues)
  exact ⟨n, t.value, hn, ht.evaluates, beq_comm n t.value ▸ hvalue⟩

end Expr

end InfixAlgebra
