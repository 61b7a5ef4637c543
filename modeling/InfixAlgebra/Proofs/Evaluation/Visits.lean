import Mathlib
import InfixAlgebra.Budget
import InfixAlgebra.Expr.Basic
import InfixAlgebra.Value

namespace InfixAlgebra

variable {α : Type}

def Limits.exceeded? (l : Limits) (number depth : Nat) : Option (Error α) :=
  if depth > l.maxDepth then some (.tooDeep l.maxDepth)
  else if number > l.maxOperations then some (.outOfOperations l.maxOperations)
  else none

namespace Expr

mutual

-- The nodes from the root on and from left to right, each with the depth at which it is found.
def nodesAt (depth : Nat) : Expr α → List (Nat × Expr α)
  | neg a         => (depth, neg a) :: a.nodesAt (depth + 1)
  | binary op a b => (depth, binary op a b) :: (a.nodesAt (depth + 1) ++ b.nodesAt (depth + 1))
  | call f args   => (depth, call f args) :: nodesOfAllAt (depth + 1) args
  | t             => [(depth, t)]
termination_by structural t => t

def nodesOfAllAt (depth : Nat) : List (Expr α) → List (Nat × Expr α)
  | []      => []
  | a :: as => a.nodesAt depth ++ nodesOfAllAt depth as
termination_by structural ts => ts

end

def unbound? (scope : Scope α) : Expr α → Option (Error α)
  | var name => if (scope.find? name).isSome then none else some (.unbound name)
  | _        => none

-- What keeps evaluation from getting past a node that has a depth and a number. Limits come before
-- what the node is.
def obstacle? (l : Limits) (scope : Scope α) (visit : (Nat × Expr α) × Nat) : Option (Error α) :=
  (l.exceeded? visit.2 visit.1.1).or (unbound? scope visit.1.2)

def firstObstacle? (l : Limits) (scope : Scope α) (number : Nat) (nodes : List (Nat × Expr α)) :
    Option (Error α) :=
  (nodes.zipIdx number).findSome? (obstacle? l scope)

variable {l : Limits} {scope : Scope α} {nodes more : List (Nat × Expr α)} {number depth : Nat}
  {t : Expr α}

theorem firstObstacle?_cons :
    firstObstacle? l scope number ((depth, t) :: nodes) =
      ((l.exceeded? number depth).or (unbound? scope t)).or
        (firstObstacle? l scope (number + 1) nodes) := by
  rw [firstObstacle?, List.zipIdx_cons, List.findSome?_cons, obstacle?]
  cases (l.exceeded? number depth).or (unbound? scope t) <;> rfl

theorem firstObstacle?_append :
    firstObstacle? l scope number (nodes ++ more) =
      (firstObstacle? l scope number nodes).or
        (firstObstacle? l scope (number + nodes.length) more) := by
  rw [firstObstacle?, List.zipIdx_append, List.findSome?_append]
  rfl

theorem firstObstacle?_eq_none_iff :
    firstObstacle? l scope number nodes = none ↔
      (∀ v ∈ nodes, v.1 ≤ l.maxDepth ∧ unbound? scope v.2 = none) ∧
        ∀ i < nodes.length, number + i ≤ l.maxOperations := by
  induction nodes generalizing number with
  | nil => simp [firstObstacle?]
  | cons v nodes ih =>
    have hexceeded : l.exceeded? (α := α) number v.1 = none ↔
        v.1 ≤ l.maxDepth ∧ number ≤ l.maxOperations := by
      unfold Limits.exceeded?
      grind
    rw [firstObstacle?_cons, Option.or_eq_none_iff, Option.or_eq_none_iff, hexceeded, ih,
      List.forall_mem_cons, List.length_cons, Nat.forall_lt_succ_left]
    simp only [Nat.add_assoc, Nat.add_comm 1, Nat.add_zero]
    tauto

theorem nodesOfAllAt_eq (depth : Nat) (ts : List (Expr α)) :
    nodesOfAllAt depth ts = ts.flatMap (nodesAt depth) := by
  induction ts with
  | nil          => rfl
  | cons t ts ih => rw [nodesOfAllAt, ih, List.flatMap_cons]

-- What the nodes say about the whole expression.

theorem length_nodesAt : (t.nodesAt depth).length = t.size := by
  induction t generalizing depth with
  | neg a ih => rw [nodesAt, size, List.length_cons, ih]
  | binary op a b iha ihb => rw [nodesAt, size, List.length_cons, List.length_append, iha, ihb]
  | call f args ih =>
    have hsize (ts : List (Expr α)) : sizeOfAll ts = (ts.map size).sum := by
      induction ts with
      | nil          => rfl
      | cons t ts ih => rw [sizeOfAll, ih, List.map_cons, List.sum_cons]
    rw [nodesAt, size, List.length_cons, nodesOfAllAt_eq, hsize, List.length_flatMap]
    exact congrArg (·.sum + 1) (List.map_congr_left fun a ha => ih a ha)
  | _ => rfl

theorem depthOfAll_le_iff {ts : List (Expr α)} {k : Nat} :
    depthOfAll ts ≤ k ↔ ∀ t ∈ ts, t.depth ≤ k := by
  induction ts with
  | nil          => simp [depthOfAll]
  | cons t ts ih => rw [depthOfAll, Nat.max_le, ih, List.forall_mem_cons]

theorem forall_nodesAt_le_iff {k : Nat} :
    (∀ v ∈ t.nodesAt depth, v.1 ≤ k) ↔ depth + t.depth ≤ k + 1 := by
  induction t generalizing depth with
  | neg a ih =>
    rw [nodesAt, List.forall_mem_cons, ih, Expr.depth]
    omega
  | binary op a b iha ihb =>
    rw [nodesAt, List.forall_mem_cons, List.forall_mem_append, iha, ihb, Expr.depth]
    omega
  | call f args ih =>
    have hargs : (∀ v ∈ nodesOfAllAt (depth + 1) args, v.1 ≤ k) ↔
        ∀ a ∈ args, depth + 1 + a.depth ≤ k + 1 := by
      rw [nodesOfAllAt_eq, List.forall_mem_flatMap]
      exact forall₂_congr fun a ha => ih a ha
    have hdepth : depthOfAll args ≤ k - depth ↔ ∀ a ∈ args, a.depth ≤ k - depth :=
      depthOfAll_le_iff
    rw [nodesAt, List.forall_mem_cons, hargs, Expr.depth]
    constructor
    case mp =>
      rintro ⟨hroot, hle⟩
      have := hdepth.mpr fun a ha => by have := hle a ha; omega
      omega
    case mpr =>
      intro hle
      have hle' := hdepth.mp (by omega)
      exact ⟨by omega, fun a ha => by have := hle' a ha; omega⟩
  | _ => simp [nodesAt, Expr.depth]

theorem anyContains_eq (name : String) (ts : List (Expr α)) :
    anyContains name ts = ts.any (contains name) := by
  induction ts with
  | nil          => rfl
  | cons t ts ih => rw [anyContains, ih, List.any_cons]

theorem exists_var_mem_nodesAt_iff (depth : Nat) {name : String} :
    (∃ v ∈ t.nodesAt depth, v.2 = var name) ↔ t.contains name := by
  induction t generalizing depth with
  | neg a ih => simp [nodesAt, contains, ← ih (depth + 1)]
  | binary op a b iha ihb =>
    simp [nodesAt, contains, ← iha (depth + 1), ← ihb (depth + 1), or_and_right,
      exists_or]
  | call f args ih =>
    have hcall : (∃ v ∈ nodesAt depth (call f args), v.2 = var name) ↔
        ∃ a ∈ args, ∃ v ∈ a.nodesAt (depth + 1), v.2 = var name := by
      rw [nodesAt, nodesOfAllAt_eq]
      simp only [List.mem_cons, List.mem_flatMap]
      grind
    rw [hcall, contains, anyContains_eq, List.any_eq_true]
    exact exists_congr fun a => and_congr_right fun ha => ih a ha (depth + 1)
  | _ => simp [nodesAt, contains]

theorem unbound?_eq_none_iff :
    unbound? scope t = none ↔ ∀ name, t = var name → (scope.find? name).isSome := by
  cases t <;> simp [unbound?, Option.isSome_iff_ne_none]

-- There is no obstacle in an expression that keeps to the limits and whose variables have values.
theorem firstObstacle?_nodesAt_eq_none_iff :
    firstObstacle? l scope 1 (t.nodesAt 1) = none ↔
      t.depth ≤ l.maxDepth ∧ t.size ≤ l.maxOperations ∧
        ∀ name, t.contains name → (scope.find? name).isSome := by
  have hdepth : (∀ v ∈ t.nodesAt 1, v.1 ≤ l.maxDepth) ↔ t.depth ≤ l.maxDepth := by
    rw [forall_nodesAt_le_iff]
    omega
  have hnumber : (∀ i < t.size, 1 + i ≤ l.maxOperations) ↔ t.size ≤ l.maxOperations :=
    ⟨fun h => by by_contra hlt; have := h l.maxOperations (by omega); omega, fun h i hi => by omega⟩
  have hbound : (∀ v ∈ t.nodesAt 1, unbound? scope v.2 = none) ↔
      ∀ name, t.contains name → (scope.find? name).isSome := by
    simp only [← exists_var_mem_nodesAt_iff 1, unbound?_eq_none_iff]
    grind
  rw [firstObstacle?_eq_none_iff, length_nodesAt, hnumber, ← hdepth, ← hbound]
  grind

end Expr

end InfixAlgebra
