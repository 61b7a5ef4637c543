import InfixAlgebra.Proofs.Canonical.Steps

namespace InfixAlgebra

open Metered

namespace Expr

variable {α : Type} [Scalar α] [NumberText α] {t r : Expr α}
  {P Q : Expr α → Expr α → Prop} {S T : List (α × Expr α) → Expr α → Prop}
  {addends : List (α × Expr α)} {u u' : Term α}

theorem SumsTo.mono (h : SumsTo P addends r) (hPQ : ∀ t r, P t r → Q t r) :
    SumsTo Q addends r :=
  have ⟨terms, hs, hr⟩ := h
  ⟨terms, hs.mono hPQ, hr⟩

theorem Spreads.mono (h : Spreads S u u') (hST : ∀ addends r, S addends r → T addends r) :
    Spreads T u u' := by
  cases h with
  | none hu            => exact .none hu
  | into hu hb hs hsum => exact .into hu hb hs (hST _ _ hsum)

theorem MultipliesTo.mono (h : MultipliesTo S t r) (hST : ∀ addends r, S addends r → T addends r) :
    MultipliesTo T t r := by
  cases h with
  | zero hz              => exact .zero hz
  | sum hz hu hf hs hsum => exact .sum hz (hu.mono hST) hf hs (hST _ _ hsum)
  | term hz hu hf        => exact .term hz (hu.mono hST) hf

-- What each round of the mutual recursion of products and sums preserves holds of all of them.
theorem product_induct (hsum : ∀ addends r, SumsTo Q addends r → S addends r)
    (hproduct : ∀ t r, MultipliesTo S t r → Q t r) (n : Nat) :
    ∀ t r, Gives (productWithin n t) r → Q t r := by
  induction n with
  | zero      => exact fun t r h => absurd h not_gives_exhausted
  | succ n ih =>
    intro t r h
    refine hproduct t r ((multipliesTo_of_gives_productWithin h).mono fun addends r hr => ?_)
    exact hsum addends r ((sumsTo_of_gives_sumWith hr).mono ih)

theorem sum_induct (hsum : ∀ addends r, SumsTo Q addends r → S addends r)
    (hproduct : ∀ t r, MultipliesTo S t r → Q t r) (h : Gives (sum addends) r) : S addends r := by
  have ⟨n, _, hr⟩ := h.exists_of_bind
  exact hsum addends r ((sumsTo_of_gives_sumWith hr).mono (product_induct hsum hproduct n))

-- What becomes of an expression whose parts become what `R` says.
inductive Becomes (Q : Expr α → Expr α → Prop) (S : List (α × Expr α) → Expr α → Prop)
    (R : Expr α → Expr α → Prop) : Expr α → Expr α → Prop
  | number (x : α) : Becomes Q S R (.number x) (.number x)
  | constant (c : Constant) : Becomes Q S R (.constant c) (.constant c)
  | var (name : String) : Becomes Q S R (.var name) (.var name)
  | neg {a a' r : Expr α} : R a a' → Q (.neg a') r → Becomes Q S R (.neg a) r
  | sum {op : Operator} {a a' b b' r : Expr α} (ho : op = .add ∨ op = .sub) :
    R a a' → R b b' → S [(1, .binary op a' b')] r → Becomes Q S R (.binary op a b) r
  | mul {a a' b b' r : Expr α} :
    R a a' → R b b' → Q (.mul a' b') r → Becomes Q S R (.mul a b) r
  | div {a a' b b' : Expr α} : R a a' → R b b' → Becomes Q S R (.div a b) (quotient a' b')
  | pow {a a' b b' : Expr α} : R a a' → R b b' → Becomes Q S R (.pow a b) (power a' b')
  | call {f : Elementary} {args args' : List (Expr α)} :
    List.Forall₂ R args args' → Becomes Q S R (.call f args) (application f args')

theorem forall₂_of_gives_canonicalAllAt {ts rs : List (Expr α)} {d : Nat}
    (h : Gives (canonicalAllAt ts d) rs) :
    List.Forall₂ (fun t r => t ∈ ts ∧ Gives (canonicalAt t d) r) ts rs := by
  induction ts generalizing rs with
  | nil =>
    rw [canonicalAllAt] at h
    rw [h.of_pure]
    exact .nil
  | cons t ts ih =>
    rw [canonicalAllAt] at h
    have ⟨r, hr, h₁⟩ := h.exists_of_bind
    have ⟨rs', hrs, h₂⟩ := h₁.exists_of_bind
    rw [h₂.of_pure]
    refine .cons ⟨List.mem_cons_self, hr⟩ ((ih hrs).imp fun _ _ hm => ?_)
    exact ⟨List.mem_cons_of_mem _ hm.1, hm.2⟩

theorem canonicalAt_induct {R : Expr α → Expr α → Prop}
    (hsum : ∀ addends r, SumsTo Q addends r → S addends r)
    (hproduct : ∀ t r, MultipliesTo S t r → Q t r)
    (hstep : ∀ t r, Becomes Q S R t r → R t r) (d : Nat) (h : Gives (t.canonicalAt d) r) :
    R t r := by
  have hmul {t r : Expr α} (h : Gives (product t) r) : Q t r :=
    have ⟨n, _, hr⟩ := h.exists_of_bind
    product_induct hsum hproduct n t r hr
  have hadd {addends : List (α × Expr α)} {r : Expr α} (h : Gives (sum addends) r) : S addends r :=
    sum_induct hsum hproduct h
  induction t generalizing d r with
  | number x =>
    rw [canonicalAt] at h
    rw [h.of_bind_unit.of_pure]
    exact hstep _ _ (.number x)
  | constant c =>
    rw [canonicalAt] at h
    rw [h.of_bind_unit.of_pure]
    exact hstep _ _ (.constant c)
  | var name =>
    rw [canonicalAt] at h
    rw [h.of_bind_unit.of_pure]
    exact hstep _ _ (.var name)
  | neg a ih =>
    rw [canonicalAt] at h
    have ⟨a', ha, hr⟩ := h.of_bind_unit.exists_of_bind
    exact hstep _ _ (.neg (ih _ ha) (hmul hr))
  | binary op a b iha ihb =>
    rw [canonicalAt] at h
    have ⟨a', ha, h₁⟩ := h.of_bind_unit.exists_of_bind
    have ⟨b', hb, h₂⟩ := h₁.exists_of_bind
    replace ha := iha _ ha
    replace hb := ihb _ hb
    cases op with
    | add => exact hstep _ _ (.sum (.inl rfl) ha hb (hadd h₂))
    | sub => exact hstep _ _ (.sum (.inr rfl) ha hb (hadd h₂))
    | mul => exact hstep _ _ (.mul ha hb (hmul h₂))
    | div => exact h₂.of_pure ▸ hstep _ _ (.div ha hb)
    | pow => exact h₂.of_pure ▸ hstep _ _ (.pow ha hb)
  | call f args ih =>
    rw [canonicalAt] at h
    have ⟨args', hargs, h₁⟩ := h.of_bind_unit.exists_of_bind
    refine h₁.of_pure ▸ hstep _ _ (.call ?_)
    exact (forall₂_of_gives_canonicalAllAt hargs).imp fun t r ⟨hm, hr⟩ => ih t hm _ hr

-- Everything that holds of each rewriting holds of the canonical form.
theorem canonical_induct {R : Expr α → Expr α → Prop} {config : Config α}
    (hsum : ∀ addends r, SumsTo Q addends r → S addends r)
    (hproduct : ∀ t r, MultipliesTo S t r → Q t r)
    (hstep : ∀ t r, Becomes Q S R t r → R t r) (h : t.canonical config = .ok r) : R t r :=
  canonicalAt_induct hsum hproduct hstep 1 (gives_of_run h)

end Expr

end InfixAlgebra
