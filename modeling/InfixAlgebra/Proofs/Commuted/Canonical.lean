import InfixAlgebra.Proofs.Commuted.Confluence

namespace InfixAlgebra

open Metered

namespace Expr

variable {ops : Operations} [NumberText (Total ops)] {a b r r' : Expr (Total ops)} {d d' : Nat}

theorem eq_of_gives_add (hlit : DistinctLiterals (Total ops)) (ha : a.Named) (hb : b.Named)
    (h : Gives ((add a b).canonicalAt d) r) (h' : Gives ((add b a).canonicalAt d') r') :
    r = r' := by
  rw [canonicalAt] at h h'
  obtain ⟨a₁, ha₁, h₁⟩ := h.of_bind_unit.exists_of_bind
  obtain ⟨b₁, hb₁, hr⟩ := h₁.exists_of_bind
  obtain ⟨b₂, hb₂, h₂⟩ := h'.of_bind_unit.exists_of_bind
  obtain ⟨a₂, ha₂, hr'⟩ := h₂.exists_of_bind
  obtain rfl := (agree_canonicalAt _ _ a).eq ha₁ ha₂
  obtain rfl := (agree_canonicalAt _ _ b).eq hb₁ hb₂
  have htidy : (add a₁ b₁).Tidy :=
    .sum (.inl rfl) (ha.tidy_canonicalAt ha₁) (hb.tidy_canonicalAt hb₁)
  have hterms (a b : Expr (Total ops)) :
      scaledTermsOfAll [(1, add a b)] = a.scaledTerms 1 ++ b.scaledTerms 1 := by
    rw [scaledTermsOfAll, List.flatMap_singleton]
    exact scaledTerms.eq_1 1 a b
  refine eq_of_gives_sum hlit (List.forall_mem_singleton.mpr htidy) ?_ hr hr'
  rw [hterms, hterms]
  exact List.perm_append_comm

theorem eq_of_gives_mul (hlit : DistinctLiterals (Total ops)) (ha : a.Named) (hb : b.Named)
    (h : Gives ((mul a b).canonicalAt d) r) (h' : Gives ((mul b a).canonicalAt d') r') :
    r = r' := by
  rw [canonicalAt] at h h'
  obtain ⟨a₁, ha₁, h₁⟩ := h.of_bind_unit.exists_of_bind
  obtain ⟨b₁, hb₁, hr⟩ := h₁.exists_of_bind
  obtain ⟨b₂, hb₂, h₂⟩ := h'.of_bind_unit.exists_of_bind
  obtain ⟨a₂, ha₂, hr'⟩ := h₂.exists_of_bind
  obtain rfl := (agree_canonicalAt _ _ a).eq ha₁ ha₂
  obtain rfl := (agree_canonicalAt _ _ b).eq hb₁ hb₂
  obtain ⟨n, _, hr⟩ := hr.exists_of_bind
  obtain ⟨m, _, hr'⟩ := hr'.exists_of_bind
  have htidy : (mul a₁ b₁).Tidy := (ha.tidy_canonicalAt ha₁).mul (hb.tidy_canonicalAt hb₁)
  have hfactors : (mul a₁ b₁).factors.Perm (mul b₁ a₁).factors := List.perm_append_comm
  have hc : (mul a₁ b₁).coefficient = (mul b₁ a₁).coefficient := by
    rw [coefficient_mul, coefficient_mul, mul_comm]
  have hg := Power.group_eq_of_perm hlit (fun f hf => htidy.factor hf) hfactors
  rw [← productWithin_eq_of_group m hc hfactors.length_eq hg] at hr'
  exact (agree_productWithin n m _).eq hr hr'

-- Sums and products do not depend on the order of their operands.
theorem canonical_comm (hlit : DistinctLiterals (Total ops)) {config : Config (Total ops)}
    (ha : a.Named) (hb : b.Named) :
    (∀ {r r'}, (add a b).canonical config = .ok r → (add b a).canonical config = .ok r' →
      r = r') ∧
    ∀ {r r'}, (mul a b).canonical config = .ok r → (mul b a).canonical config = .ok r' →
      r = r' :=
  ⟨fun h h' => eq_of_gives_add hlit ha hb (gives_of_run h) (gives_of_run h'),
    fun h h' => eq_of_gives_mul hlit ha hb (gives_of_run h) (gives_of_run h')⟩

end Expr

section Example

-- Quotients and powers of rational numbers, and functions that do nothing.
def Operations.rational : Operations where
  constant
    | .pi => 355 / 113
    | .e  => 193 / 71
  elementary _ x := x
  div x y        := x / y
  pow x y        := x ^ y.num

namespace Total

-- The numerator, and the denominator behind the point.
def literal (x : ℚ) : Numeral where
  whole    := Nat.toDigits 10 x.num.natAbs
  fraction := some (Nat.toDigits 10 x.den)
  power    := none

def displayed (x : ℚ) : String :=
  String.ofList (if x < 0 then '-' :: (literal x).toList else (literal x).toList)

instance : NumberText (Total .rational) where
  ofDecimal d := (d.digits * 10 ^ d.exponent : ℚ)
  ofJson? _ _ := none
  ofText? _   := none
  display     := displayed
  plain       := displayed
  scientific  := displayed
  json        := displayed

theorem wellFormed_literal (x : ℚ) : (literal x).WellFormed where
  whole c hc := Nat.isDigit_of_mem_toDigits (by decide) (by decide) hc
  nonempty   := Nat.toDigits_ne_nil
  fraction fs hfs c hc := by
    cases hfs
    exact Nat.isDigit_of_mem_toDigits (by decide) (by decide) hc
  power      := nofun

theorem literal_inj {x y : ℚ} (hsign : x < 0 ↔ y < 0) (h : literal x = literal y) : x = y := by
  have ⟨hnum, hden⟩ : x.num.natAbs = y.num.natAbs ∧ x.den = y.den := by
    simp only [literal, Numeral.mk.injEq, Option.some.injEq, and_true] at h
    exact ⟨Nat.repr_inj.mp (congrArg String.ofList h.1),
      Nat.repr_inj.mp (congrArg String.ofList h.2)⟩
  refine Rat.ext ?_ hden
  rw [← Rat.num_neg, ← Rat.num_neg] at hsign
  omega

theorem displayed_inj {x y : ℚ} (h : displayed x = displayed y) : x = y := by
  have hminus (x y : ℚ) : '-' :: (literal x).toList ≠ (literal y).toList := by
    have ⟨c, cs, hcs, hc⟩ := (wellFormed_literal y).exists_cons
    intro h
    rw [hcs, List.cons.injEq] at h
    cases h.1 ▸ hc
  have hliteral (hsign : x < 0 ↔ y < 0) (h : (literal x).toList = (literal y).toList) : x = y := by
    have hx := Numeral.scan_toList_append (wellFormed_literal x) (.nil)
    have hy := Numeral.scan_toList_append (wellFormed_literal y) (.nil)
    rw [h, hy] at hx
    exact literal_inj hsign (Option.some.inj hx).symm
  replace h := String.ofList_injective h
  by_cases hx : x < 0
  case pos =>
    rw [if_pos hx] at h
    by_cases hy : y < 0
    case pos =>
      rw [if_pos hy] at h
      exact hliteral (iff_of_true hx hy) (List.cons.inj h).2
    case neg =>
      rw [if_neg hy] at h
      exact absurd h (hminus x y)
  case neg =>
    rw [if_neg hx] at h
    by_cases hy : y < 0
    case pos =>
      rw [if_pos hy] at h
      exact absurd h.symm (hminus y x)
    case neg =>
      rw [if_neg hy] at h
      exact hliteral (iff_of_false hx hy) h

theorem distinctLiterals_rational : DistinctLiterals (Total .rational) where
  numeral x := by
    have hdisplayed (q : ℚ) : (displayed q).toList =
        if decide (q < 0) then '-' :: (literal q).toList else (literal q).toList := by
      rw [displayed, String.toList_ofList]
      simp
    exact ⟨literal x, wellFormed_literal x, hdisplayed x⟩
  inj := displayed_inj

end Total

namespace Expr

-- Both a number that goes into a sum and terms that come in another order.
theorem canonical_comm_of_scaled_sum :
    let x : Expr (Total .rational) := .var "x"
    let y : Expr (Total .rational) := .var "y"
    let two : Expr (Total .rational) := .number (2 : ℚ)
    let half : Expr (Total .rational) := .number (1 / 2 : ℚ)
    let a := mul half (add y x)
    let b := sub (mul x y) two
    let s := add (add (add (.number (-2 : ℚ)) (mul half x)) (mul x y)) (mul half y)
    let p := mul (add (.number (-2 : ℚ)) (mul x y)) (add (mul half x) (mul half y))
    a.Named ∧ b.Named ∧ DistinctLiterals (Total .rational) ∧
      (add a b).canonical .standard = .ok s ∧ (add b a).canonical .standard = .ok s ∧
      (mul a b).canonical .standard = .ok p ∧ (mul b a).canonical .standard = .ok p := by
  intro x y two half a b s p
  have hx : x.Named := fun name h => beq_iff_eq.mp h ▸ ⟨by decide, by decide⟩
  have hy : y.Named := fun name h => beq_iff_eq.mp h ▸ ⟨by decide, by decide⟩
  have ha : a.Named := by
    intro name h
    simp only [a, contains, Bool.or_eq_true] at h
    rcases h with h | h | h
    · cases h
    · exact hy name h
    · exact hx name h
  have hb : b.Named := by
    intro name h
    simp only [b, contains, Bool.or_eq_true] at h
    rcases h with (h | h) | h
    · exact hx name h
    · exact hy name h
    · cases h
  have hs : (add a b).canonical .standard = .ok s := by
    subst s a b x y two half
    decide +kernel
  have hp : (mul a b).canonical .standard = .ok p := by
    subst p a b x y two half
    decide +kernel
  have hok {t : Expr (Total .rational)} (h : (t.canonical .standard).isOk) :
      ∃ r, t.canonical .standard = .ok r := by
    cases hr : t.canonical .standard with
    | ok r    => exact ⟨r, rfl⟩
    | error e =>
      rw [hr] at h
      cases h
  have ⟨s', hs'⟩ : ∃ s', (add b a).canonical .standard = .ok s' := by
    subst a b x y two half
    exact hok (by decide +kernel)
  have ⟨p', hp'⟩ : ∃ p', (mul b a).canonical .standard = .ok p' := by
    subst a b x y two half
    exact hok (by decide +kernel)
  have hsum : s = s' := (canonical_comm Total.distinctLiterals_rational ha hb).1 hs hs'
  have hproduct : p = p' := (canonical_comm Total.distinctLiterals_rational ha hb).2 hp hp'
  exact ⟨ha, hb, Total.distinctLiterals_rational, hs, hsum ▸ hs', hp, hproduct ▸ hp'⟩

end Expr

end Example

end InfixAlgebra
