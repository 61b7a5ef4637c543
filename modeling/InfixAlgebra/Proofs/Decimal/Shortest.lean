import Mathlib
import InfixAlgebra.Decimal.Shortest

namespace InfixAlgebra

def Decimal.value (d : Decimal) : ℚ :=
  d.digits * 10 ^ d.exponent

namespace Neighbourhood

variable {v : Neighbourhood} {q : ℚ} {tie : Tie} {exponent : Int} {d : Decimal}

def Contains (v : Neighbourhood) (q : ℚ) : Prop :=
  if v.closed then
    v.low ≤ q * v.unit ∧ q * v.unit ≤ v.high
  else
    v.low < q * v.unit ∧ q * v.unit < v.high

-- A neighbourhood that lies on both sides of its value, and in which decimals of seventeen digits
-- cannot be avoided.
structure Wide (v : Neighbourhood) : Prop where
  unit  : 0 < v.unit
  low   : 0 < v.low
  below : v.low < v.value
  above : v.value < v.high
  wide  : v.value < 10 ^ 16 * (v.high - v.low)

-- The place of the first digit.

theorem lt_ten_pow_digitCount (n : Nat) : n < 10 ^ digitCount n :=
  (Nat.length_toDigits_le_iff (by decide) Nat.length_toDigits_pos).mp (Nat.le_refl _)

theorem ten_pow_le_of_pos {n : Nat} (hn : 0 < n) : 10 ^ (digitCount n - 1) ≤ n := by
  rcases Nat.eq_zero_or_pos (digitCount n - 1) with h | h
  case inl => rw [h]; exact hn
  case inr =>
    have hle := (Nat.length_toDigits_le_iff (n := n) (by decide : 1 < 10) h).not
    exact Nat.le_of_not_lt (hle.mp (by change ¬digitCount n ≤ _; omega))

theorem ten_zpow_place_le (h : v.Wide) : (10 : ℚ) ^ (v.place - 1) * v.unit ≤ v.value := by
  have hunit := h.unit
  have hvalue : 0 < v.value := Nat.zero_lt_of_lt h.below
  unfold place
  split
  case isTrue hle =>
    have hpow := ten_pow_le_of_pos (Nat.div_pos hle hunit)
    have hcount : 0 < digitCount (v.value / v.unit) := Nat.length_toDigits_pos
    generalize digitCount (v.value / v.unit) = k at *
    rw [Nat.le_div_iff_mul_le hunit] at hpow
    rw [show (k - 1 : Int) = (k - 1 : Nat) by omega, zpow_natCast]
    exact_mod_cast hpow
  case isFalse hlt =>
    have hpow := lt_ten_pow_digitCount ((v.unit - 1) / v.value)
    generalize digitCount ((v.unit - 1) / v.value) = k at *
    rw [Nat.div_lt_iff_lt_mul hvalue] at hpow
    have hle : v.unit ≤ 10 ^ k * v.value := by omega
    have hle : (v.unit : ℚ) ≤ 10 ^ k * v.value := by exact_mod_cast hle
    rw [show (1 - k - 1 : Int) = -(k : Int) by omega, zpow_neg, zpow_natCast]
    exact (inv_mul_le_iff₀ (by positivity)).mpr hle

-- A multiple of a power of ten is compared with a number without leaving the integers.

theorem ten_zpow_eq (e : Int) : (10 : ℚ) ^ e = 10 ^ e.toNat / 10 ^ (-e).toNat := by
  obtain ⟨n, rfl | rfl⟩ := Int.eq_nat_or_neg e <;> simp

theorem value_mul_unit (n unit : Nat) (e : Int) :
    Decimal.value ⟨n, e⟩ * unit = (n * (unit * 10 ^ e.toNat) : Nat) / (10 ^ (-e).toNat : Nat) := by
  rw [Decimal.value, ten_zpow_eq]
  push_cast
  ring

theorem scaled_le_iff (a n unit : Nat) (e : Int) :
    a * 10 ^ (-e).toNat ≤ n * (unit * 10 ^ e.toNat) ↔ (a : ℚ) ≤ Decimal.value ⟨n, e⟩ * unit := by
  have hscale : (0 : ℚ) < (10 ^ (-e).toNat : Nat) := by positivity
  rw [value_mul_unit, le_div_iff₀ hscale]
  exact_mod_cast Iff.rfl

theorem le_scaled_iff (a n unit : Nat) (e : Int) :
    n * (unit * 10 ^ e.toNat) ≤ a * 10 ^ (-e).toNat ↔ Decimal.value ⟨n, e⟩ * unit ≤ a := by
  have hscale : (0 : ℚ) < (10 ^ (-e).toNat : Nat) := by positivity
  rw [value_mul_unit, div_le_iff₀ hscale]
  exact_mod_cast Iff.rfl

theorem contains_iff (v : Neighbourhood) (n : Nat) (e : Int) :
    v.Contains (Decimal.value ⟨n, e⟩) ↔
      nearest?.fits v (v.low * 10 ^ (-e).toNat) (n * (v.unit * 10 ^ e.toNat)) ∧
        nearest?.fits v (n * (v.unit * 10 ^ e.toNat)) (v.high * 10 ^ (-e).toNat) := by
  unfold Contains nearest?.fits
  cases v.closed
  case true => simp [scaled_le_iff, le_scaled_iff]
  case false =>
    have hlow := (le_scaled_iff v.low n v.unit e).not
    have hhigh := (scaled_le_iff v.high n v.unit e).not
    simp only [not_le] at hlow hhigh
    simp [hlow, hhigh]

-- The multiples of the step on either side of the value, of which the lower one is not above the
-- value and the upper one is.

theorem fits_of_lt {a b : Nat} (h : a < b) : nearest?.fits v a b := by
  unfold nearest?.fits
  split
  case isTrue  => exact decide_eq_true h.le
  case isFalse => exact decide_eq_true h

theorem le_of_fits {a b : Nat} (h : nearest?.fits v a b) : a ≤ b := by
  unfold nearest?.fits at h
  split at h
  case isTrue  => exact of_decide_eq_true h
  case isFalse => exact (of_decide_eq_true h).le

theorem le_of_not_fits {a b : Nat} (h : nearest?.fits v a b = false) : b ≤ a := by
  cases Nat.lt_or_ge a b
  case inl hlt => rw [fits_of_lt hlt] at h; cases h
  case inr hle => exact hle

structure Brackets (v : Neighbourhood) (exponent : Int) (n : Nat) : Prop where
  below : n * (v.unit * 10 ^ exponent.toNat) ≤ v.value * 10 ^ (-exponent).toNat
  above : v.value * 10 ^ (-exponent).toNat < (n + 1) * (v.unit * 10 ^ exponent.toNat)

theorem brackets (hunit : 0 < v.unit) (exponent : Int) :
    v.Brackets exponent
      (v.value * 10 ^ (-exponent).toNat / (v.unit * 10 ^ exponent.toNat)) := by
  have hstep : 0 < v.unit * 10 ^ exponent.toNat := by positivity
  exact ⟨Nat.div_mul_le_self .., Nat.lt_mul_of_div_lt (Nat.lt_succ_self _) hstep⟩

theorem Brackets.contains_lower {n : Nat} (h : v.Wide) (hn : v.Brackets exponent n) :
    v.Contains (Decimal.value ⟨n, exponent⟩) ↔
      nearest?.fits v (v.low * 10 ^ (-exponent).toNat) (n * (v.unit * 10 ^ exponent.toNat)) := by
  have habove : v.value * 10 ^ (-exponent).toNat < v.high * 10 ^ (-exponent).toNat :=
    Nat.mul_lt_mul_of_pos_right h.above (by positivity)
  simp [contains_iff, fits_of_lt (hn.below.trans_lt habove)]

theorem Brackets.contains_upper {n : Nat} (h : v.Wide) (hn : v.Brackets exponent n) :
    v.Contains (Decimal.value ⟨n + 1, exponent⟩) ↔
      nearest?.fits v ((n + 1) * (v.unit * 10 ^ exponent.toNat))
        (v.high * 10 ^ (-exponent).toNat) := by
  have hbelow : v.low * 10 ^ (-exponent).toNat < v.value * 10 ^ (-exponent).toNat :=
    Nat.mul_lt_mul_of_pos_right h.below (by positivity)
  simp [contains_iff, fits_of_lt (hbelow.trans hn.above)]

theorem nearer_eq (tie : Tie) (rest step n : Nat) :
    nearest?.nearer tie rest step n = n ∨ nearest?.nearer tie rest step n = n + 1 := by
  unfold nearest?.nearer
  cases tie <;> grind

theorem contains_of_nearest? (h : v.Wide) (hd : v.nearest? tie exponent = some d) :
    v.Contains d.value := by
  have hn := brackets h.unit exponent
  unfold nearest? at hd
  simp only [Nat.pow_eq] at hd
  split at hd
  case h_1 => cases hd
  case h_2 hlower _ =>
    cases hd
    exact (hn.contains_lower h).mpr hlower
  case h_3 _ hupper =>
    cases hd
    exact (hn.contains_upper h).mpr hupper
  case h_4 hlower hupper =>
    cases hd
    rcases nearer_eq tie _ _ _ with heq | heq <;> rw [heq]
    case inl => exact (hn.contains_lower h).mpr hlower
    case inr => exact (hn.contains_upper h).mpr hupper

-- A step that is smaller than the neighbourhood does not lead across it.
theorem nearest?_ne_none (h : v.Wide) (hstep : (10 : ℚ) ^ exponent * v.unit < v.high - v.low) :
    v.nearest? tie exponent ≠ none := by
  have hn := brackets h.unit exponent
  unfold nearest?
  simp only [Nat.pow_eq]
  split
  case h_1 hlower hupper =>
    have hlow := le_of_not_fits hlower
    have hhigh := le_of_not_fits hupper
    rw [le_scaled_iff] at hlow
    rw [scaled_le_iff] at hhigh
    simp only [Decimal.value] at hlow hhigh
    push_cast at hlow hhigh
    linarith
  all_goals simp

theorem pos_of_contains (h : v.Wide) (hd : v.Contains d.value) : 0 < d.digits := by
  have hlow := le_of_fits ((contains_iff v d.digits d.exponent).mp hd).1
  have hpos : 0 < v.low * 10 ^ (-d.exponent).toNat := Nat.mul_pos h.low (by positivity)
  exact Nat.pos_of_mul_pos_right (hpos.trans_le hlow)

theorem contains_shortest (h : v.Wide) (tie : Tie) : v.Contains (v.shortest tie).value := by
  have hplace : (10 : ℚ) ^ (v.place - 17) * v.unit < v.high - v.low := by
    have hle := ten_zpow_place_le h
    have hwide : (v.value : ℚ) < 10 ^ 16 * (v.high - v.low) := by
      rw [← Nat.cast_sub (h.below.trans h.above).le]
      exact_mod_cast h.wide
    have hpow : (10 : ℚ) ^ (v.place - 1) = 10 ^ 16 * 10 ^ (v.place - 17) := by
      rw [← zpow_natCast, ← zpow_add₀ (by norm_num)]
      congr 1
      omega
    rw [hpow] at hle
    linarith
  have hfound : v.nearest? tie (v.place - 17) ≠ none := nearest?_ne_none h hplace
  unfold shortest
  cases hd : (List.range 17).findSome? fun (n : Nat) => v.nearest? tie (v.place - (n + 1)) with
  | none =>
    rw [List.findSome?_eq_none_iff] at hd
    exact absurd (hd 16 (by simp)) hfound
  | some d =>
    obtain ⟨n, -, hd⟩ := List.exists_of_findSome?_eq_some hd
    exact contains_of_nearest? h hd

end Neighbourhood

end InfixAlgebra
