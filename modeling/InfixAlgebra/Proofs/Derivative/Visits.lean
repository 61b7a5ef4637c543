import InfixAlgebra.Proofs.Derivative.Steps
import InfixAlgebra.Proofs.Evaluation.Outcome

namespace InfixAlgebra

variable {α β γ : Type}

namespace Metered

-- A computation that gives a result for at most `bound` operations, as soon as the limit on the
-- depth admits `depth`. It fails only if the allowance of operations ends before.
def Affords (depth bound : Nat) (x : Metered α β) : Prop :=
  ∃ b cost, cost ≤ bound ∧ ∀ (l : Limits) (used : Nat), depth ≤ l.maxDepth →
    used ≤ l.maxOperations → (ReaderT.run x l).run used =
      if used + cost ≤ l.maxOperations then .ok (b, used + cost)
      else .error (.outOfOperations l.maxOperations)

namespace Affords

variable {d m n k : Nat} {x : Metered α β} {f : β → Metered α γ}

theorem pure (b : β) : Affords (α := α) d 0 (pure b) := by
  refine ⟨b, 0, Nat.le_refl 0, fun l used _ hused => ?_⟩
  simp [hused]
  rfl

theorem step {depth : Nat} (h : depth ≤ d) : Affords (α := α) d 1 (step depth) := by
  refine ⟨(), 1, Nat.le_refl 1, fun l used hd _ => ?_⟩
  have hdepth : ¬depth > l.maxDepth := Nat.not_lt.mpr (h.trans hd)
  by_cases hused : used + 1 ≤ l.maxOperations
  case pos => simp [run_step, Limits.exceeded?, hdepth, hused, Nat.not_lt.mpr hused]
  case neg => simp [run_step, Limits.exceeded?, hdepth, hused, Nat.lt_of_not_le hused]

theorem bind (hx : Affords d m x) (hf : ∀ b, Affords d n (f b)) :
    Affords d (m + n) (x >>= f) := by
  have ⟨b, cost, hcost, hx⟩ := hx
  have ⟨c, cost', hcost', hf⟩ := hf b
  refine ⟨c, cost + cost', Nat.add_le_add hcost hcost', fun l used hd hused => ?_⟩
  have hrun : (ReaderT.run (x >>= f) l).run used =
      (ReaderT.run x l).run used >>= fun r => (ReaderT.run (f r.1) l).run r.2 :=
    rfl
  rw [hrun, hx l used hd hused]
  by_cases hfirst : used + cost ≤ l.maxOperations
  case pos =>
    rw [if_pos hfirst, ← Nat.add_assoc]
    exact hf l (used + cost) hd hfirst
  case neg =>
    have hboth : ¬used + (cost + cost') ≤ l.maxOperations := by omega
    rw [if_neg hfirst, if_neg hboth]
    rfl

theorem bind_pure (hx : Affords d m x) (g : β → γ) : Affords d m (do return g (← x)) :=
  hx.bind fun b => .pure (g b)

theorem mono (hx : Affords d m x) (h : m ≤ k) : Affords d k x :=
  have ⟨b, cost, hcost, hx⟩ := hx
  ⟨b, cost, hcost.trans h, hx⟩

end Affords

end Metered

namespace Expr

open Metered

variable [Scalar α] {name : String} {d depth : Nat} {t a b : Expr α} {op : Operator}

-- What a node takes itself, apart from its operands, is one operation.
theorem affords_node {x : Metered α (Expr α)} {bound : Nat} (h : depth ≤ d)
    (hx : Affords d bound x) :
    Affords d (bound + 1) (do
      step depth
      if !t.contains name then return number 0
      x) := by
  rw [Nat.add_comm]
  refine (Affords.step h).bind fun _ => ?_
  split
  case isTrue  => exact (Affords.pure _).mono (Nat.zero_le _)
  case isFalse => exact hx

-- No rule looks at an operand more than once, and each one at its own depth.
theorem affords_binary (h : depth ≤ d) (ha : Affords d a.size (a.deriveAt name (depth + 1)))
    (hb : Affords d b.size (b.deriveAt name (depth + 1))) :
    Affords d (binary op a b).size ((binary op a b).deriveAt name depth) := by
  have hboth (f : Expr α → Expr α → Expr α) : Affords d (a.size + b.size) (do
      let a' ← a.deriveAt name (depth + 1)
      let b' ← b.deriveAt name (depth + 1)
      return f a' b') :=
    ha.bind fun a' => hb.bind_pure (f a')
  have hleft (f : Expr α → Expr α) : Affords d (a.size + b.size) (do
      return f (← a.deriveAt name (depth + 1))) :=
    (ha.bind_pure f).mono (Nat.le_add_right ..)
  have hright (f : Expr α → Expr α) : Affords d (a.size + b.size) (do
      return f (← b.deriveAt name (depth + 1))) :=
    (hb.bind_pure f).mono (Nat.le_add_left ..)
  cases op with
  | add =>
    rw [deriveAt]
    exact affords_node h (hboth Folded.add)
  | sub =>
    rw [deriveAt]
    exact affords_node h (hboth Folded.sub)
  | mul =>
    rw [deriveAt]
    refine affords_node h ?_
    split
    case isTrue => exact hright _
    case isFalse =>
      split
      case isTrue  => exact hleft (Folded.mul · b)
      case isFalse => exact hboth fun a' b' => Folded.add (Folded.mul a' b) (Folded.mul a b')
  | div =>
    rw [deriveAt]
    refine affords_node h ?_
    split
    case isTrue  => exact hleft (Folded.div · b)
    case isFalse => exact hboth _
  | pow =>
    rw [deriveAt]
    refine affords_node h ?_
    split
    case isTrue => exact hleft _
    case isFalse =>
      split
      case isTrue  => exact hright _
      case isFalse =>
        rw [Nat.add_comm a.size]
        exact hb.bind fun b' => ha.bind_pure _

theorem affords_deriveAt (ht : t.MadeOf .singleCalls) (h : depth + t.depth ≤ d + 1) :
    Affords d t.size (t.deriveAt name depth) := by
  induction ht generalizing depth with
  | number =>
    rw [deriveAt]
    exact affords_node (Nat.le_of_add_le_add_right h) (.pure _)
  | constant =>
    rw [deriveAt]
    exact affords_node (Nat.le_of_add_le_add_right h) (.pure _)
  | var =>
    rw [deriveAt]
    exact affords_node (Nat.le_of_add_le_add_right h) (.pure _)
  | neg _ ih =>
    rw [Expr.depth] at h
    rw [deriveAt]
    exact affords_node (by omega) ((ih (by omega)).bind_pure Folded.neg)
  | binary op _ _ iha ihb =>
    rw [Expr.depth] at h
    exact affords_binary (by omega) (iha (by omega)) (ihb (by omega))
  | @call f args hone _ ih =>
    obtain ⟨a, rfl⟩ := List.length_eq_one_iff.mp hone
    simp only [Expr.depth, depthOfAll] at h
    rw [deriveAt]
    have ha : Affords d a.size (a.deriveAt name (depth + 1)) :=
      ih a (List.mem_singleton_self a) (by omega)
    exact affords_node (by omega) (ha.bind_pure fun a' => Folded.mul (slope f a) a')

-- Differentiation fails for the depth exactly if the expression is too deep. Otherwise the number
-- of operations that it pays for is at most the number of nodes, and it only fails if the allowance
-- is less than that.
theorem differentiate_within_size (ht : t.MadeOf .singleCalls) (name : String) :
    (∀ config : Config α, t.differentiate config name = .error (.tooDeep config.maxDepth) ↔
      config.maxDepth < t.depth) ∧
    ∃ r cost, cost ≤ t.size ∧ ∀ config : Config α, t.depth ≤ config.maxDepth →
      (ReaderT.run (t.deriveAt name 1) config.toLimits).run 0 =
        (if cost ≤ config.maxOperations then .ok (r, cost)
          else .error (.outOfOperations config.maxOperations)) ∧
      (t.size ≤ config.maxOperations → t.differentiate config name = .ok r) := by
  have hwithin : Affords t.depth t.size (t.deriveAt name 1) :=
    affords_deriveAt ht (Nat.add_comm ..).le
  have ⟨r, cost, hcost, hrun⟩ := hwithin
  have hrun (config : Config α) (hd : t.depth ≤ config.maxDepth) :
      (ReaderT.run (t.deriveAt name 1) config.toLimits).run 0 =
        (if cost ≤ config.maxOperations then .ok (r, cost)
          else .error (.outOfOperations config.maxOperations)) := by
    simpa using hrun config.toLimits 0 hd (Nat.zero_le _)
  refine ⟨fun config => ⟨fun h => ?_, differentiate_of_lt name⟩, r, cost, hcost,
    fun config hd => ?_⟩
  case refine_1 =>
    by_contra hd
    have hle := Nat.le_of_not_lt hd
    rw [differentiate_of_le name hle, Metered.run, hrun config hle] at h
    split at h <;> cases h
  case refine_2 =>
    refine ⟨hrun config hd, fun hsize => ?_⟩
    rw [differentiate_of_le name hd, Metered.run, hrun config hd, if_pos (hcost.trans hsize)]
    rfl

-- The variable is in the base only, so the exponent is passed over: four of seven nodes are paid
-- for.
theorem differentiate_within_size_of_constant_exponent :
    let t : Expr Float := .pow (.add (.var "x") (.number 1)) (.div (.var "y") (.number 2))
    let config (depth operations : Nat) : Config Float :=
      { Config.standard with maxDepth := depth, maxOperations := operations }
    t.MadeOf .singleCalls ∧ t.depth = 3 ∧ t.size = 7 ∧
      t.differentiate (config 2 7) "x" = .error (.tooDeep 2) ∧
      (∃ r, t.differentiate (config 3 7) "x" = .ok r) ∧
      t.differentiate (config 3 4) "x" = t.differentiate (config 3 7) "x" ∧
      t.differentiate (config 3 3) "x" = .error (.outOfOperations 3) := by
  intro t config
  have ht : t.MadeOf .singleCalls :=
    .binary _ (.binary _ (.var trivial) (.number trivial))
      (.binary _ (.var trivial) (.number trivial))
  have ⟨hdeep, r, cost, _, hrun⟩ := differentiate_within_size ht "x"
  have hr := (hrun (config 3 7) (by decide)).2 (by decide)
  let slope : Expr Float :=
    .mul (.div (.var "y") (.number 2))
      (.pow (.add (.var "x") (.number 1)) (.sub (.div (.var "y") (.number 2)) (.number 1)))
  have hfour : t.differentiate (config 3 4) "x" = .ok slope := rfl
  have hseven : t.differentiate (config 3 7) "x" = .ok slope := rfl
  exact ⟨ht, rfl, rfl, (hdeep _).mpr (by decide), ⟨r, hr⟩, hfour.trans hseven.symm, rfl⟩

end Expr

end InfixAlgebra
