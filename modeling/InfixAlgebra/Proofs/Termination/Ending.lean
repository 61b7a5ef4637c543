import Mathlib
import InfixAlgebra.Expr.Canonical
import InfixAlgebra.Proofs.Canonical.Running
import InfixAlgebra.Proofs.Transport.Running

namespace InfixAlgebra

namespace Metered

variable {α β γ δ : Type}

inductive Ending : (Nat → Except (Error α) (β × Nat)) → Prop
  | error {e : Error α} (he : ∀ k, e ≠ .outOfOperations k) : Ending fun _ => .error e
  | ok (b : β) (cost : Nat) : Ending fun used => .ok (b, used + cost)

-- A computation that comes in variants, one for each allowance of rounds. From some number of
-- rounds and of operations on it always comes to the same.
def Ends (maxDepth : Nat) (x : Nat → Metered α β) : Prop :=
  ∃ ending, Ending ending ∧ ∃ bound, ∀ n used maxOperations, bound ≤ n →
    used + bound ≤ maxOperations →
      (ReaderT.run (x n) ⟨maxDepth, maxOperations⟩).run used = ending used

abbrev EndsAlways (maxDepth : Nat) (x : Metered α β) : Prop :=
  Ends maxDepth fun _ => x

namespace Ends

variable {d : Nat} {x y : Nat → Metered α β} {f : Nat → β → Metered α γ}

theorem pure (b : β) : EndsAlways (α := α) d (pure b) :=
  ⟨_, .ok b 0, 0, fun _ _ _ _ _ => rfl⟩

theorem charge (count : Nat) : EndsAlways (α := α) d (charge count) := by
  refine ⟨_, .ok () count, count, fun n used maxOperations _ h => ?_⟩
  rw [run_charge, if_neg (Nat.not_lt.mpr h)]

theorem checkChain (length : Nat) : EndsAlways (α := α) d (checkChain length) := by
  by_cases h : length > d
  case pos =>
    refine ⟨_, .error (e := .tooDeep d) nofun, 0, fun n used maxOperations _ _ => ?_⟩
    rw [run_checkChain, if_pos h]
  case neg =>
    refine ⟨_, .ok () 0, 0, fun n used maxOperations _ _ => ?_⟩
    rw [run_checkChain, if_neg h, Nat.add_zero]

-- Only what comes out in the end is passed on.
theorem bind (hx : Ends d x) (hf : ∀ b, (∃ n, Gives (x n) b) → Ends d (f · b)) :
    Ends d fun n => x n >>= f n := by
  have hrun (n used maxOperations : Nat) :
      (ReaderT.run (x n >>= f n) ⟨d, maxOperations⟩).run used =
        (ReaderT.run (x n) ⟨d, maxOperations⟩).run used >>= fun r =>
          (ReaderT.run (f n r.1) ⟨d, maxOperations⟩).run r.2 :=
    rfl
  have ⟨_, hending, bound, h⟩ := hx
  cases hending with
  | error he =>
    refine ⟨_, .error he, bound, fun n used maxOperations hn hused => ?_⟩
    rw [hrun, h n used maxOperations hn hused]
    rfl
  | ok b cost =>
    have hb : Gives (x bound) b := ⟨_, _, _, h bound 0 bound (Nat.le_refl _) (Nat.zero_add _).le⟩
    have ⟨ending', hending', bound', h'⟩ := hf b ⟨bound, hb⟩
    have hboth (n used maxOperations : Nat) (hn : bound + cost + bound' ≤ n)
        (hused : used + (bound + cost + bound') ≤ maxOperations) :
        (ReaderT.run (x n >>= f n) ⟨d, maxOperations⟩).run used = ending' (used + cost) := by
      rw [hrun, h n used maxOperations (by omega) (by omega)]
      exact h' n (used + cost) maxOperations (by omega) (by omega)
    cases hending' with
    | error he => exact ⟨_, .error he, _, hboth⟩
    | ok c cost' => exact ⟨_, .ok c (cost + cost'), _, by simpa only [Nat.add_assoc] using hboth⟩

theorem step (depth : Nat) : EndsAlways (α := α) d (step depth) :=
  (checkChain depth).bind fun _ _ => charge 1

-- The first variants play no role.
theorem of_eventually (k : Nat) (h : ∀ n, k ≤ n → x n = y n) (hy : Ends d y) : Ends d x := by
  have ⟨ending, hending, bound, hy⟩ := hy
  refine ⟨ending, hending, k + bound, fun n used maxOperations hn hused => ?_⟩
  rw [h n (by omega)]
  exact hy n used maxOperations (by omega) (by omega)

theorem of_succ (h : Ends d fun n => x (n + 1)) : Ends d x := by
  have ⟨ending, hending, bound, h⟩ := h
  refine ⟨ending, hending, bound + 1, fun n used maxOperations hn hused => ?_⟩
  obtain ⟨n, rfl⟩ := Nat.exists_eq_add_of_le' (Nat.le_of_add_left_le hn)
  exact h n used maxOperations (by omega) (by omega)

-- As many rounds as there are operations, and one more, are enough in the end.
theorem of_nesting (h : Ends d x) : EndsAlways d (do x ((← read).maxOperations + 1)) := by
  have ⟨ending, hending, bound, h⟩ := h
  refine ⟨ending, hending, bound, fun _ used maxOperations _ hused => ?_⟩
  exact h (maxOperations + 1) used maxOperations (by omega) hused

theorem mapM {f : Nat → γ → Metered α δ} {cs : List γ} (h : ∀ c ∈ cs, Ends d (f · c)) :
    Ends d fun n => cs.mapM (f n) := by
  induction cs with
  | nil => exact pure []
  | cons c cs ih =>
    simp only [List.mapM_cons]
    refine (h c List.mem_cons_self).bind fun d _ => ?_
    exact (ih fun c hc => h c (List.mem_cons_of_mem _ hc)).bind fun ds _ => pure (d :: ds)

theorem foldlM {f : γ → δ → Metered α γ} (h : ∀ c e, EndsAlways d (f c e)) (es : List δ) (c : γ) :
    EndsAlways d (es.foldlM f c) := by
  induction es generalizing c with
  | nil => exact pure c
  | cons e es ih =>
    simp only [List.foldlM_cons]
    exact (h c e).bind fun c' _ => ih c'

-- What ends does not run out of operations if there are enough.
theorem exists_run_ne {x : Metered α β} (h : EndsAlways d x) :
    ∃ bound, ∀ maxOperations, bound ≤ maxOperations →
      ∀ k, run x ⟨d, maxOperations⟩ ≠ .error (.outOfOperations k) := by
  have ⟨_, hending, bound, h⟩ := h
  refine ⟨bound, fun maxOperations hle k hk => ?_⟩
  rw [run, h bound 0 maxOperations (Nat.le_refl _) (by omega)] at hk
  cases hending with
  | error he  => exact he k (Except.error.inj hk)
  | ok b cost => cases hk

end Ends

end Metered

end InfixAlgebra
