import InfixAlgebra.Proofs.Decimal.DataNumeral
import InfixAlgebra.Proofs.Double.Display
import InfixAlgebra.Proofs.Json.Reading

namespace InfixAlgebra

namespace Double

open Binary64 Float.Model Float.Model.UnpackedFloat

variable {x y : Float} {s s' : Sign} {m m' : Nat} {e e' : Int} {hm : 0 < m} {hm' : 0 < m'} {q : ℚ}

-- The numbers around a number.

-- How far the numbers that are read back reach down, in quarters of the last place.
def reach (m : Nat) (e : Int) : Nat :=
  if m = 2 ^ 52 ∧ e ≠ -1074 then 1 else 2

theorem neighbourhood_eq (m : Nat) (e : Int) :
    neighbourhood ⟨m, e⟩ =
      { value  := 4 * m * 2 ^ (e - 2).toNat
        low    := (4 * m - reach m e) * 2 ^ (e - 2).toNat
        high   := (4 * m + 2) * 2 ^ (e - 2).toNat
        unit   := 2 ^ (2 - e).toNat
        closed := m % 2 == 0 } :=
  rfl

theorem reach_eq (m : Nat) (e : Int) :
    reach m e = 1 ∧ m = 2 ^ 52 ∧ e ≠ -1074 ∨ reach m e = 2 ∧ (m = 2 ^ 52 → e = -1074) := by
  unfold reach
  grind

theorem wide_neighbourhood (hc : Canonical (.finite s m e hm)) : (neighbourhood ⟨m, e⟩).Wide := by
  have hlt := hc.1
  have hreach := reach_eq m e
  have hpos : 0 < 2 ^ (e - 2).toNat := Nat.two_pow_pos _
  rw [neighbourhood_eq]
  constructor
  case unit  => exact Nat.two_pow_pos _
  case low   => exact Nat.mul_pos (by omega) hpos
  case below => exact Nat.mul_lt_mul_of_pos_right (by omega) hpos
  case above => exact Nat.mul_lt_mul_of_pos_right (by omega) hpos
  case wide =>
    simp only [← Nat.sub_mul, ← Nat.mul_assoc]
    exact Nat.mul_lt_mul_of_pos_right (by omega) hpos

theorem two_zpow_mul (e : Int) :
    (2 : ℚ) ^ (e - 2) * (2 ^ (2 - e).toNat : Nat) = (2 ^ (e - 2).toNat : Nat) := by
  obtain ⟨n, h | h⟩ := Int.eq_nat_or_neg (e - 2)
  · simp [h, show 2 - e = -(n : Int) by omega]
  · simp [h, show 2 - e = n by omega]

theorem scaled_le_iff {a : Nat} :
    ((a * 2 ^ (e - 2).toNat : Nat) : ℚ) ≤ q * (2 ^ (2 - e).toNat : Nat) ↔
      (a : ℚ) * 2 ^ (e - 2) ≤ q := by
  rw [Nat.cast_mul, ← two_zpow_mul, ← mul_assoc]
  exact mul_le_mul_iff_left₀ (by positivity)

theorem le_scaled_iff {a : Nat} :
    q * (2 ^ (2 - e).toNat : Nat) ≤ ((a * 2 ^ (e - 2).toNat : Nat) : ℚ) ↔
      q ≤ (a : ℚ) * 2 ^ (e - 2) := by
  rw [Nat.cast_mul, ← two_zpow_mul, ← mul_assoc]
  exact mul_le_mul_iff_left₀ (by positivity)

theorem bounds_of_contains (h : (neighbourhood ⟨m, e⟩).Contains q) :
    ((4 * m - reach m e : Nat) : ℚ) * 2 ^ (e - 2) ≤ q ∧ q ≤ (4 * m + 2 : Nat) * 2 ^ (e - 2) := by
  rw [← scaled_le_iff, ← le_scaled_iff]
  rw [neighbourhood_eq, Neighbourhood.Contains] at h
  split at h
  case isTrue  => exact h
  case isFalse => exact ⟨h.1.le, h.2.le⟩

-- The ends do not belong to the numbers around a number if its mantissa is odd.
theorem bounds_of_contains_of_odd (h : (neighbourhood ⟨m, e⟩).Contains q) (hodd : m % 2 = 1) :
    ((4 * m - reach m e : Nat) : ℚ) * 2 ^ (e - 2) < q ∧ q < (4 * m + 2 : Nat) * 2 ^ (e - 2) := by
  have hopen : ¬(m % 2 == 0) = true := by simp [hodd]
  rw [← not_le, ← not_le, ← scaled_le_iff, ← le_scaled_iff, not_le, not_le]
  rwa [neighbourhood_eq, Neighbourhood.Contains, if_neg hopen] at h

-- Numbers around two numbers, of which the one with the larger exponent is counted in quarters of
-- the last place of the other.
theorem overlap (h : (neighbourhood ⟨m, e⟩).Contains q) (h' : (neighbourhood ⟨m', e'⟩).Contains q)
    (hle : e ≤ e') :
    (4 * m' - reach m' e') * 2 ^ (e' - e).toNat ≤ 4 * m + 2 ∧
      4 * m - reach m e ≤ (4 * m' + 2) * 2 ^ (e' - e).toNat ∧
      (m % 2 = 1 ∨ m' % 2 = 1 → (4 * m' - reach m' e') * 2 ^ (e' - e).toNat < 4 * m + 2 ∧
        4 * m - reach m e < (4 * m' + 2) * 2 ^ (e' - e).toNat) := by
  have hpow : (2 : ℚ) ^ (e' - 2) = (2 ^ (e' - e).toNat : Nat) * 2 ^ (e - 2) := by
    rw [Nat.cast_pow, Nat.cast_ofNat, ← zpow_natCast, ← zpow_add₀ (by norm_num)]
    congr 1
    omega
  have hlast : (0 : ℚ) < 2 ^ (e - 2) := by positivity
  have ⟨hlow, hhigh⟩ := bounds_of_contains h
  have ⟨hlow', hhigh'⟩ := bounds_of_contains h'
  rw [hpow, ← mul_assoc, ← Nat.cast_mul] at hlow' hhigh'
  refine ⟨?_, ?_, ?_⟩
  · exact_mod_cast le_of_mul_le_mul_right (hlow'.trans hhigh) hlast
  · exact_mod_cast le_of_mul_le_mul_right (hlow.trans hhigh') hlast
  rintro (hodd | hodd)
  · have ⟨hlow, hhigh⟩ := bounds_of_contains_of_odd h hodd
    constructor
    · exact_mod_cast lt_of_mul_lt_mul_right (hlow'.trans_lt hhigh) hlast.le
    · exact_mod_cast lt_of_mul_lt_mul_right (hlow.trans_le hhigh') hlast.le
  · have ⟨hlow', hhigh'⟩ := bounds_of_contains_of_odd h' hodd
    rw [hpow, ← mul_assoc, ← Nat.cast_mul] at hlow' hhigh'
    constructor
    · exact_mod_cast lt_of_mul_lt_mul_right (hlow'.trans_le hhigh) hlast.le
    · exact_mod_cast lt_of_mul_lt_mul_right (hlow.trans_lt hhigh') hlast.le

-- Numbers around different numbers are different.
theorem eq_of_contains_of_le (hc : Canonical (.finite s m e hm))
    (hc' : Canonical (.finite s' m' e' hm')) (h : (neighbourhood ⟨m, e⟩).Contains q)
    (h' : (neighbourhood ⟨m', e'⟩).Contains q) (hle : e ≤ e') : m = m' ∧ e = e' := by
  have ⟨hlow, hhigh, hodd⟩ := overlap h h' hle
  have ⟨hlt, hmin, _, hlead⟩ := hc
  have ⟨hlt', hmin', _, hlead'⟩ := hc'
  have hreach := reach_eq m e
  have hreach' := reach_eq m' e'
  rcases Int.lt_or_eq_of_le hle with hlt_e | rfl
  case inl =>
    -- The numbers meet in the end of the first ones, whose mantissa is odd.
    obtain ⟨k, hk⟩ : ∃ k, (e' - e).toNat = k + 1 := ⟨(e' - e).toNat - 1, by omega⟩
    have hpos := Nat.two_pow_pos k
    have hscaled : (4 * m' - reach m' e') * 2 ≤ (4 * m' - reach m' e') * 2 ^ (k + 1) :=
      Nat.mul_le_mul_left _ (by omega)
    rw [hk] at hlow hodd
    have := hlead'.resolve_right (by omega)
    have hm : m = 2 ^ 53 - 1 := by omega
    have := (hodd (.inl (by omega))).1
    omega
  case inr =>
    rw [Int.sub_self, Int.toNat_zero, Nat.pow_zero] at *
    omega

theorem eq_of_contains (hc : Canonical (.finite s m e hm)) (hc' : Canonical (.finite s' m' e' hm'))
    (h : (neighbourhood ⟨m, e⟩).Contains q) (h' : (neighbourhood ⟨m', e'⟩).Contains q) :
    m = m' ∧ e = e' := by
  rcases le_total e e' with hle | hle
  case inl => exact eq_of_contains_of_le hc hc' h h' hle
  case inr => exact (eq_of_contains_of_le hc' hc h' h hle).imp Eq.symm Eq.symm

-- The text of a number.

open Layout

-- The size of a finite number up to what its text leaves open.
def IsMagnitude (x : Float) (q : ℚ) : Prop :=
  if (ofFloat x).mantissa = 0 then q = 0 else (ofFloat x).neighbourhood.Contains q

theorem isMagnitude_of_zero (hx : unpacked x = .zero s) : IsMagnitude x q ↔ q = 0 := by
  rw [IsMagnitude, if_pos (magnitude_of_zero hx).2]

theorem isMagnitude_of_finite (hx : unpacked x = .finite s m e hm) :
    IsMagnitude x q ↔ (neighbourhood ⟨m, e⟩).Contains q := by
  rw [IsMagnitude, (magnitude_of_finite hx).2, if_neg hm.ne']

theorem toList_signed (negative : Bool) (cs : List Char) :
    (signed negative (String.ofList cs)).toList = if negative then '-' :: cs else cs := by
  cases negative <;> simp [signed]

-- Finite numbers are written as numerals, perhaps with a sign.
theorem exists_json (hx : x.isFinite) :
    ∃ n : Numeral, n.WellFormed ∧ Json.Read.isNumeral n ∧ IsMagnitude x n.decimal.value ∧
      (NumberText.json x).toList = if isNegative x then '-' :: n.toList else n.toList := by
  rcases zero_or_finite hx with ⟨s, hz⟩ | ⟨s, m, e, hm, hf⟩
  case inl =>
    refine ⟨dataNumeral ['0'] 0, wellFormed_dataNumeral lead_zero, isNumeral_dataNumeral lead_zero,
      ?_, ?_⟩
    · rw [isMagnitude_of_zero hz, value_dataNumeral lead_zero]
      simp [valueOf, Decimal.natOfDigits, Decimal.digitValue]
    · have htext : NumberText.json x =
          signed (isNegative x && true) (String.ofList (json.unsigned ['0'] 0)) := by
        rw [(magnitude_of_zero hz).1]
        exact congrArg json.write (writable_of_zero hz)
      rw [htext, Bool.and_true, toList_signed, unsigned_json]
  case inr =>
    have hc : Canonical (.finite s m e hm) := hf ▸ canonical_unpacked x
    have hwide := wide_neighbourhood hc
    let d := (neighbourhood ⟨m, e⟩).shortest .even
    have hcontains : (neighbourhood ⟨m, e⟩).Contains d.value :=
      Neighbourhood.contains_shortest hwide .even
    have hlead := lead_significant (Neighbourhood.pos_of_contains hwide hcontains)
    refine ⟨dataNumeral (significant d).1 (significant d).2, wellFormed_dataNumeral hlead,
      isNumeral_dataNumeral hlead, ?_, ?_⟩
    · rw [isMagnitude_of_finite hf, value_dataNumeral hlead, valueOf_significant]
      exact hcontains
    · have htext : NumberText.json x =
          signed (isNegative x)
            (String.ofList (json.unsigned (significant d).1 (significant d).2)) := by
        rw [(magnitude_of_finite hf).1]
        exact congrArg json.write (writable_of_finite hf)
      rw [htext, toList_signed, unsigned_json]

theorem isNumber_json (hx : x.isFinite) : Json.IsNumber (NumberText.json x).toList := by
  have ⟨n, hn, hnumeral, _, htext⟩ := exists_json hx
  rw [htext]
  split
  case isTrue  => exact .negative hn hnumeral
  case isFalse => exact .positive hn hnumeral

theorem not_isMagnitude_zero (hx : unpacked x = .finite s m e hm) : ¬IsMagnitude x 0 := by
  have hc : Canonical (.finite s m e hm) := hx ▸ canonical_unpacked x
  intro h
  rw [isMagnitude_of_finite hx, show 0 = Decimal.value ⟨0, 0⟩ by simp [Decimal.value]] at h
  exact absurd (Neighbourhood.pos_of_contains (wide_neighbourhood hc) h) (by simp)

theorem eq_of_isMagnitude (hx : x.isFinite) (hy : y.isFinite)
    (hsign : isNegative x = isNegative y) (hxq : IsMagnitude x q) (hyq : IsMagnitude y q) :
    x = y := by
  have hbit {s s'} (h : (signBit s == 1) = (signBit s' == 1)) : s = s' := by
    cases s <;> cases s' <;> first | rfl | cases h
  rcases zero_or_finite hx with ⟨s, hz⟩ | ⟨s, m, e, hm, hf⟩
  case inl =>
    obtain rfl := (isMagnitude_of_zero hz).mp hxq
    rcases zero_or_finite hy with ⟨s', hz'⟩ | ⟨s', m', e', hm', hf'⟩
    case inr => exact absurd hyq (not_isMagnitude_zero hf')
    case inl =>
      rw [(magnitude_of_zero hz).1, (magnitude_of_zero hz').1] at hsign
      exact eq_of_unpacked (by rw [hz, hz', hbit hsign])
  case inr =>
    rcases zero_or_finite hy with ⟨s', hz'⟩ | ⟨s', m', e', hm', hf'⟩
    case inl =>
      obtain rfl := (isMagnitude_of_zero hz').mp hyq
      exact absurd hxq (not_isMagnitude_zero hf)
    case inr =>
      rw [(magnitude_of_finite hf).1, (magnitude_of_finite hf').1] at hsign
      have hc : Canonical (.finite s m e hm) := hf ▸ canonical_unpacked x
      have hc' : Canonical (.finite s' m' e' hm') := hf' ▸ canonical_unpacked y
      have ⟨hmantissa, hexponent⟩ := eq_of_contains hc hc' ((isMagnitude_of_finite hf).mp hxq)
        ((isMagnitude_of_finite hf').mp hyq)
      exact eq_of_unpacked (by rw [hf, hf', hbit hsign, finite_congr hmantissa hexponent])

theorem numeral?_signed {n : Numeral} (hn : n.WellFormed) (negative : Bool) :
    Json.numeral? (if negative then '-' :: n.toList else n.toList) = some (negative, n) := by
  have hlist := Numeral.ofList?_toList hn
  have ⟨c, cs, hcs, hc⟩ := hn.exists_cons
  cases negative with
  | true => simp [Json.numeral?, hlist]
  | false =>
    rw [hcs] at hlist
    have hne : c ≠ '-' := by rintro rfl; cases hc
    simp only [Bool.false_eq_true, if_false, hcs]
    unfold Json.numeral?
    grind

-- Different finite numbers have different texts.
theorem json_inj (hx : x.isFinite) (hy : y.isFinite) (h : NumberText.json x = NumberText.json y) :
    x = y := by
  have ⟨n, hn, _, hxq, hxtext⟩ := exists_json hx
  have ⟨k, hk, _, hyq, hytext⟩ := exists_json hy
  have hnumeral : some (isNegative x, n) = some (isNegative y, k) := by
    rw [← numeral?_signed hn, ← numeral?_signed hk, ← hxtext, ← hytext, h]
  rw [Option.some_inj, Prod.mk.injEq] at hnumeral
  have ⟨hsign, hnk⟩ := hnumeral
  subst hnk
  exact eq_of_isMagnitude hx hy hsign hxq hyq

end Double

end InfixAlgebra
