import InfixAlgebra.Proofs.Evaluation.Outcome

namespace InfixAlgebra

variable {α β γ : Type}

namespace Metered

def Raises (x : Metered α β) (e : Error α) : Prop :=
  ∃ limits used, (ReaderT.run x limits).run used = .error e

variable {x : Metered α β} {f : β → Metered α γ} {e e' : Error α} {b : β} {name : String}

theorem raises_of_run {limits : Limits} (h : run x limits = .error e) : Raises x e :=
  ⟨limits, 0, eq_error_of_map_eq_error h⟩

theorem not_raises_pure : ¬Raises (pure b : Metered α β) e := by
  intro h
  have ⟨_, _, hx⟩ := h
  cases hx

theorem Raises.of_throw (h : Raises (throw e' : Metered α β) e) : e' = e := by
  have ⟨_, _, hx⟩ := h
  exact Except.error.inj hx

theorem Raises.of_lift {z : Except (Error α) β} (h : Raises (liftM z : Metered α β) e) :
    z = .error e := by
  have ⟨_, used, hx⟩ := h
  cases z with
  | error e' => exact congrArg Except.error (Except.error.inj hx)
  | ok b     => cases hx

theorem Raises.of_bind (h : Raises (x >>= f) e) : Raises x e ∨ ∃ b, Raises (f b) e := by
  have ⟨limits, used, hf⟩ := h
  have hf : ((ReaderT.run x limits).run used >>= fun r => (ReaderT.run (f r.1) limits).run r.2) =
      Except.error e := hf
  rcases exists_of_bind_eq_error hf with hx | ⟨r, _, hr⟩
  case inl => exact .inl ⟨_, _, hx⟩
  case inr => exact .inr ⟨r.1, _, _, hr⟩

theorem Raises.of_bind_pure {g : β → γ} (h : Raises (do return g (← x)) e) : Raises x e :=
  h.of_bind.resolve_right fun ⟨_, hb⟩ => not_raises_pure hb

-- Paying for a node fails for nothing but the limits.
theorem Raises.of_step {y : Metered α β} {depth : Nat}
    (h : Raises (do step depth; y) (.unbound name)) : Raises y (.unbound name) := by
  rcases h.of_bind with ⟨l, used, hs⟩ | ⟨_, hy⟩
  case inl =>
    rw [run_step, Limits.exceeded?] at hs
    split at hs
    case isTrue => cases hs
    case isFalse => split at hs <;> cases hs
  case inr => exact hy

end Metered

section Combination

variable {name : String}

-- Operators look at shapes only, and never miss a variable.

theorem guard_ne_unbound {p : Prop} [Decidable p] {b : β} {fault : ShapeFault} :
    (if p then pure b else throw (.shape fault) : Except (Error α) β) ≠ .error (.unbound name) := by
  split <;> nofun

theorem map_ne_unbound {z : Except (Error α) β} (g : β → γ) (h : z ≠ .error (.unbound name)) :
    g <$> z ≠ .error (.unbound name) := by
  cases z with
  | error e => exact fun he => h (congrArg Except.error (Except.error.inj he))
  | ok b    => nofun

variable [Scalar α] (v w : Value α)

theorem Value.add_ne_unbound : v.add w ≠ .error (.unbound name) := by
  cases v <;> cases w
  case matrix.matrix m n => exact map_ne_unbound _ guard_ne_unbound
  all_goals nofun

theorem Value.mul_ne_unbound : v.mul w ≠ .error (.unbound name) := by
  cases v <;> cases w
  case matrix.matrix m n =>
    simp only [mul]
    split
    case h_1 => exact map_ne_unbound _ guard_ne_unbound
    case h_2 => exact map_ne_unbound _ guard_ne_unbound
    case h_3 => exact map_ne_unbound _ guard_ne_unbound
  all_goals nofun

theorem Value.combine_ne_unbound (op : Operator) : combine op v w ≠ .error (.unbound name) := by
  unfold combine
  split
  case h_1 => nofun
  case h_2 => exact add_ne_unbound v w
  case h_3 => exact add_ne_unbound v _
  case h_4 => exact mul_ne_unbound v w
  case h_5 => nofun
  case h_6 => nofun

end Combination

namespace Expr

open Metered

variable [Scalar α] {t : Expr α} {scope : Scope α} {config : Config α} {name : String} {d : Nat}

-- Evaluation misses a value only for a variable that occurs in the expression.
theorem contains_of_raises_unbound (h : Raises (t.evaluateAt scope d) (.unbound name)) :
    t.contains name ∧ scope.find? name = none := by
  induction t generalizing d with
  | number x =>
    rw [evaluateAt] at h
    exact absurd h.of_step not_raises_pure
  | constant c =>
    rw [evaluateAt] at h
    exact absurd h.of_step not_raises_pure
  | var x =>
    rw [evaluateAt] at h
    replace h := h.of_step
    split at h
    case h_1 => exact absurd h not_raises_pure
    case h_2 hnone =>
      cases h.of_throw
      exact ⟨beq_self_eq_true name, hnone⟩
  | neg a ih =>
    rw [evaluateAt] at h
    exact ih h.of_step.of_bind_pure
  | binary op a b iha ihb =>
    rw [evaluateAt] at h
    rcases h.of_step.of_bind with ha | ⟨v, h⟩
    case inl =>
      obtain ⟨hname, hnone⟩ := iha ha
      exact ⟨by simp [contains, hname], hnone⟩
    case inr =>
      rcases h.of_bind with hb | ⟨w, h⟩
      case inl =>
        obtain ⟨hname, hnone⟩ := ihb hb
        exact ⟨by simp [contains, hname], hnone⟩
      case inr => exact absurd h.of_lift (v.combine_ne_unbound w op)
  | call f args ih =>
    by_cases hone : ∃ a, args = [a]
    case pos =>
      obtain ⟨a, rfl⟩ := hone
      rw [evaluateAt] at h
      obtain ⟨hname, hnone⟩ := ih a (List.mem_singleton_self a) h.of_step.of_bind_pure
      exact ⟨by simp [contains, anyContains, hname], hnone⟩
    case neg =>
      rw [evaluateAt] at h
      · cases h.of_step.of_throw
      · exact fun a ha => hone ⟨a, ha⟩

theorem evaluate_ne_unbound (h : ∀ name, t.contains name → (scope.find? name).isSome) :
    t.evaluate config scope ≠ .error (.unbound name) := by
  intro he
  have ⟨hname, hnone⟩ := contains_of_raises_unbound (raises_of_run he)
  simpa [hnone] using h name hname

end Expr

end InfixAlgebra
