namespace InfixAlgebra

variable {ε β γ : Type}

section Parts

variable {x : Except ε β} {f : β → γ} {k : β → Except ε γ} {c : γ} {e : ε}

theorem exists_of_map_eq_ok (h : f <$> x = .ok c) : ∃ b, x = .ok b ∧ f b = c := by
  cases x with
  | error e => cases h
  | ok b    => cases h; exact ⟨b, rfl, rfl⟩

theorem eq_error_of_map_eq_error (h : f <$> x = .error e) : x = .error e := by
  cases x with
  | error e' => exact congrArg Except.error (Except.error.inj h)
  | ok b     => cases h

theorem exists_of_bind_eq_ok (h : x >>= k = .ok c) : ∃ b, x = .ok b ∧ k b = .ok c := by
  cases x with
  | error e => cases h
  | ok b    => exact ⟨b, rfl, h⟩

theorem exists_of_bind_eq_error (h : x >>= k = .error e) :
    x = .error e ∨ ∃ b, x = .ok b ∧ k b = .error e := by
  cases x with
  | error e' => cases h; exact .inl rfl
  | ok b     => exact .inr ⟨b, rfl, h⟩

end Parts

inductive Paired (R : β → γ → Prop) : Except ε β → Except ε γ → Prop
  | error (e : ε) : Paired R (.error e) (.error e)
  | ok {b : β} {c : γ} (h : R b c) : Paired R (.ok b) (.ok c)

namespace Paired

variable {δ β' γ' : Type} {R : β → γ → Prop} {R' : β' → γ' → Prop} {x : Except ε β}
  {y : Except ε γ} {f : β → δ} {g : γ → δ}

theorem map_eq (h : Paired R x y) (hR : ∀ {b c}, R b c → f b = g c) : f <$> x = g <$> y := by
  cases h with
  | error e => rfl
  | ok h    => exact congrArg Except.ok (hR h)

theorem of_map_eq (h : f <$> x = g <$> y)
    (hR : ∀ {b c}, x = .ok b → y = .ok c → f b = g c → R b c) : Paired R x y := by
  cases x with
  | error e =>
    cases y with
    | error e' => cases h; exact .error e
    | ok c     => cases h
  | ok b =>
    cases y with
    | error e' => cases h
    | ok c     => exact .ok (hR rfl rfl (Except.ok.inj h))

theorem bind {k : β → Except ε β'} {m : γ → Except ε γ'} (h : Paired R x y)
    (hk : ∀ {b c}, R b c → Paired R' (k b) (m c)) : Paired R' (x >>= k) (y >>= m) := by
  cases h with
  | error e => exact .error e
  | ok h    => exact hk h

end Paired

end InfixAlgebra
