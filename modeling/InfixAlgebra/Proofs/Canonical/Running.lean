import Mathlib
import InfixAlgebra.Expr.Canonical
import InfixAlgebra.Proofs.Except

namespace InfixAlgebra

theorem forall_of_forall₂ {β γ : Type} {p : β → Prop} {q : γ → Prop} {xs : List β} {ys : List γ}
    (h : List.Forall₂ (fun x y => p x → q y) xs ys) (hxs : ∀ x ∈ xs, p x) : ∀ y ∈ ys, q y := by
  induction h with
  | nil => nofun
  | cons hy _ ih =>
    have ⟨hx, hxs⟩ := List.forall_mem_cons.mp hxs
    exact List.forall_mem_cons.mpr ⟨hy hx, ih hxs⟩

namespace Metered

variable {α β γ δ : Type} {x : Metered α β} {f : β → Metered α γ} {b : β} {c : γ}

-- What a computation may give, whatever the limits and however much has been spent before.
def Gives (x : Metered α β) (b : β) : Prop :=
  ∃ limits used rest, (ReaderT.run x limits).run used = .ok (b, rest)

theorem gives_of_run {limits : Limits} (h : run x limits = .ok b) : Gives x b := by
  obtain ⟨r, hx, rfl⟩ := exists_of_map_eq_ok h
  exact ⟨limits, 0, r.2, hx⟩

theorem Gives.of_pure {b' : β} (h : Gives (pure b : Metered α β) b') : b' = b := by
  have ⟨_, _, _, hx⟩ := h
  cases hx
  rfl

theorem Gives.exists_of_bind (h : Gives (x >>= f) c) : ∃ b, Gives x b ∧ Gives (f b) c := by
  have ⟨limits, used, rest, hf⟩ := h
  have hf : ((ReaderT.run x limits).run used >>= fun r => (ReaderT.run (f r.1) limits).run r.2) =
      Except.ok (c, rest) := hf
  have ⟨r, hx, hr⟩ := exists_of_bind_eq_ok hf
  exact ⟨r.1, ⟨_, _, _, hx⟩, ⟨_, _, _, hr⟩⟩

-- What is paid for a computation does not show in what it gives.
theorem Gives.of_bind_unit {x : Metered α Unit} {y : Metered α γ}
    (h : Gives (do x; y) c) : Gives y c :=
  have ⟨_, _, hy⟩ := h.exists_of_bind
  hy

theorem not_gives_throw {e : Error α} : ¬Gives (throw e : Metered α β) b := by
  intro h
  have ⟨_, _, _, ht⟩ := h
  cases ht

theorem not_gives_exhausted : ¬Gives (exhausted : Metered α β) b := by
  intro h
  have ⟨_, _, ht⟩ := h.exists_of_bind
  exact not_gives_throw ht

theorem Gives.of_foldlM {g : γ → δ → Metered α γ} {pureStep : γ → δ → γ} {ds : List δ} {c' : γ}
    (hstep : ∀ c d c', Gives (g c d) c' → c' = pureStep c d) (h : Gives (ds.foldlM g c) c') :
    c' = ds.foldl pureStep c := by
  induction ds generalizing c with
  | nil          => exact h.of_pure
  | cons d ds ih =>
    rw [List.foldlM_cons] at h
    have ⟨c₁, h₁, h₂⟩ := h.exists_of_bind
    rw [ih h₂, hstep c d c₁ h₁]
    rfl

theorem Gives.of_mapM {g : γ → Metered α δ} {cs : List γ} {ds : List δ}
    (h : Gives (cs.mapM g) ds) : List.Forall₂ (fun c d => Gives (g c) d) cs ds := by
  induction cs generalizing ds with
  | nil =>
    rw [List.mapM_nil] at h
    rw [h.of_pure]
    exact .nil
  | cons c cs ih =>
    rw [List.mapM_cons] at h
    have ⟨d, hd, h₁⟩ := h.exists_of_bind
    have ⟨ds', hds, h₂⟩ := h₁.exists_of_bind
    rw [h₂.of_pure]
    exact .cons hd (ih hds)

end Metered

end InfixAlgebra
