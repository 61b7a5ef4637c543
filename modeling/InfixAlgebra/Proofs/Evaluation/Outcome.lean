import InfixAlgebra.Expr.Evaluation
import InfixAlgebra.Proofs.Evaluation.Visits
import InfixAlgebra.Proofs.Ingredients.Basic
import InfixAlgebra.Proofs.Transport.Running
import InfixAlgebra.Scalar.Double

namespace InfixAlgebra

open Metered

variable {α β γ : Type}

def Ingredients.singleCalls : Ingredients α where
  number _ := True
  name _   := True
  arity n  := n = 1

theorem Metered.run_step (depth used : Nat) (l : Limits) :
    (ReaderT.run (step depth : Metered α Unit) l).run used =
      (l.exceeded? (used + 1) depth).elim (.ok ((), used + 1)) .error := by
  have hstep : (ReaderT.run (step depth : Metered α Unit) l).run used =
      (ReaderT.run (checkChain depth : Metered α Unit) l).run used >>= fun r =>
        (ReaderT.run (charge 1 : Metered α Unit) l).run r.2 :=
    rfl
  rw [hstep, run_checkChain, Limits.exceeded?]
  split
  case isTrue  => rfl
  case isFalse =>
    refine (run_charge 1 used l).trans ?_
    split <;> rfl

namespace Expr

-- A computation that pays for nodes one after another and gives `b`, unless it meets an obstacle.
def Walks (l : Limits) (scope : Scope α) (nodes : List (Nat × Expr α)) (x : Metered α β) (b : β) :
    Prop :=
  ∀ used, (ReaderT.run x l).run used =
    (firstObstacle? l scope (used + 1) nodes).elim (.ok (b, used + nodes.length)) .error

variable {l : Limits} {scope : Scope α} {nodes more : List (Nat × Expr α)} {depth : Nat}
  {x : Metered α β} {f : β → Metered α γ} {b : β} {c : γ} {t : Expr α}

namespace Walks

theorem pure (b : β) : Walks l scope [] (Pure.pure b) b :=
  fun _ => rfl

theorem bind (hx : Walks l scope nodes x b) (hf : Walks l scope more (f b) c) :
    Walks l scope (nodes ++ more) (x >>= f) c := by
  intro used
  have hrun : (ReaderT.run (x >>= f) l).run used =
      (ReaderT.run x l).run used >>= fun r => (ReaderT.run (f r.1) l).run r.2 :=
    rfl
  rw [hrun, hx, firstObstacle?_append, List.length_append, ← Nat.add_assoc, Nat.add_right_comm used]
  cases firstObstacle? l scope (used + 1) nodes with
  | some e => rfl
  | none   => exact hf _

theorem bind_pure (hx : Walks l scope nodes x b) (g : β → γ) :
    Walks l scope nodes (do return g (← x)) (g b) :=
  List.append_nil nodes ▸ hx.bind (.pure (g b))

theorem visit (ht : unbound? scope t = none) (hx : Walks l scope nodes x b) :
    Walks l scope ((depth, t) :: nodes) (do step depth; x) b := by
  intro used
  have hrun : (ReaderT.run (do step depth; x) l).run used =
      (ReaderT.run (step depth : Metered α Unit) l).run used >>= fun r =>
        (ReaderT.run x l).run r.2 :=
    rfl
  rw [hrun, run_step, firstObstacle?_cons, ht, List.length_cons, Nat.add_comm nodes.length,
    ← Nat.add_assoc]
  cases l.exceeded? (α := α) (used + 1) depth with
  | some e => rfl
  | none   => exact hx _

theorem visit_unbound {e : Error α} (ht : unbound? scope t = some e) :
    Walks l scope [(depth, t)] (do step depth; throw e) b := by
  intro used
  have hrun : (ReaderT.run (do step depth; throw e : Metered α β) l).run used =
      (ReaderT.run (step depth : Metered α Unit) l).run used >>= fun _ => .error e :=
    rfl
  rw [hrun, run_step, firstObstacle?_cons, ht]
  cases l.exceeded? (α := α) (used + 1) depth <;> rfl

end Walks

variable [Scalar α] {values : String → α}

-- The value where variables stand for `values`, with every operation done in the numbers' own
-- arithmetic. A call with any other number of arguments than one has none.
def scalarValue (values : String → α) : Expr α → α
  | number x      => x
  | constant c    => Scalar.constant c
  | var name      => values name
  | neg a         => -a.scalarValue values
  | binary op a b => op.apply (a.scalarValue values) (b.scalarValue values)
  | call f [a]    => Scalar.elementary f (a.scalarValue values)
  | call _ _      => 0
termination_by structural t => t

-- Evaluation pays for all nodes, in their order.
theorem walks_evaluateAt (ht : t.MadeOf .singleCalls)
    (hscope : ∀ name v, scope.find? name = some v → v = .scalar (values name)) (depth : Nat) :
    Walks l scope (t.nodesAt depth) (t.evaluateAt scope depth)
      (.scalar (t.scalarValue values)) := by
  induction ht generalizing depth with
  | number   => exact .visit rfl (.pure _)
  | constant => exact .visit rfl (.pure _)
  | @var name _ =>
    rw [evaluateAt, nodesAt]
    · cases hv : scope.find? name with
      | none   => exact .visit_unbound (by rw [unbound?, hv]; rfl)
      | some v =>
        refine .visit (by rw [unbound?, hv]; rfl) ?_
        rw [hscope name v hv]
        exact .pure _
    all_goals simp
  | neg _ ih =>
    rw [evaluateAt, nodesAt]
    exact .visit rfl ((ih _).bind_pure _)
  | binary op _ _ iha ihb =>
    have hcombine (x y : α) : Value.combine op (.scalar x) (.scalar y) =
        .ok (.scalar (op.apply x y)) := by
      cases op <;> rfl
    rw [evaluateAt, nodesAt]
    refine .visit rfl ((iha _).bind ?_)
    rw [← List.append_nil (nodesAt ..)]
    refine (ihb _).bind ?_
    rw [hcombine]
    exact .pure _
  | @call f args hone _ ih =>
    obtain ⟨a, rfl⟩ := List.length_eq_one_iff.mp hone
    rw [evaluateAt, nodesAt, nodesOfAllAt_eq, List.flatMap_singleton]
    exact .visit rfl ((ih a (List.mem_singleton_self a) _).bind_pure _)

-- With numbers for its variables an expression has its value, unless there is an obstacle among its
-- nodes. Then the first one decides.
theorem evaluate_eq_firstObstacle {config : Config α} (ht : t.MadeOf .singleCalls)
    (hscope : ∀ name v, scope.find? name = some v → v = .scalar (values name)) :
    t.evaluate config scope =
      (match firstObstacle? config.toLimits scope 1 (t.nodesAt 1) with
        | some e => .error e
        | none   => .ok (.scalar (t.scalarValue values))) ∧
    (firstObstacle? config.toLimits scope 1 (t.nodesAt 1) = none ↔
      t.depth ≤ config.maxDepth ∧ t.size ≤ config.maxOperations ∧
        ∀ name, t.contains name → (scope.find? name).isSome) := by
  refine ⟨?_, firstObstacle?_nodesAt_eq_none_iff⟩
  have hrun : t.evaluate config scope =
      (·.1) <$> (ReaderT.run (t.evaluateAt scope 1) config.toLimits).run 0 :=
    rfl
  rw [hrun, walks_evaluateAt ht hscope 1 0]
  cases firstObstacle? config.toLimits scope 1 (t.nodesAt 1) <;> rfl

-- The last one of six nodes is a variable that has no value. A quotient by zero is no obstacle.
theorem evaluate_eq_firstObstacle_of_unbound :
    let t : Expr Float := .add (.div (.var "x") (.number 0)) (.neg (.var "y"))
    let scope : Scope Float := ⟨[("x", .scalar 1)]⟩
    let wider : Scope Float := ⟨[("x", .scalar 1), ("y", .scalar 1)]⟩
    let config (n : Nat) : Config Float := { Config.standard with maxOperations := n }
    t.MadeOf .singleCalls ∧ (∀ name v, scope.find? name = some v → v = .scalar 1) ∧
      (∀ name v, wider.find? name = some v → v = .scalar 1) ∧
      t.evaluate (config 5) scope = .error (.outOfOperations 5) ∧
      t.evaluate (config 6) scope = .error (.unbound "y") ∧
      t.evaluate (config 6) wider = .ok (.scalar (1 / 0 + -1)) := by
  intro t scope wider config
  have ht : t.MadeOf .singleCalls :=
    .binary _ (.binary _ (.var trivial) (.number trivial)) (.neg (.var trivial))
  have hscope : ∀ name v, scope.find? name = some v → v = .scalar 1 := by
    simp [scope, NameMap.find?, List.lookup]
    grind
  have hwider : ∀ name v, wider.find? name = some v → v = .scalar 1 := by
    simp [wider, NameMap.find?, List.lookup]
    grind
  exact ⟨ht, hscope, hwider, (evaluate_eq_firstObstacle ht hscope).1,
    (evaluate_eq_firstObstacle ht hscope).1, (evaluate_eq_firstObstacle ht hwider).1⟩

end Expr

end InfixAlgebra
