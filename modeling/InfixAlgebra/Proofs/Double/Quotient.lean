import InfixAlgebra.Proofs.Double.Rounding

namespace InfixAlgebra

namespace Double

open Float.Model Float.Model.UnpackedFloat

variable {x y : Float} {u : UnpackedFloat} {s s' : Sign} {m m' r : Nat} {e e' t : Int} {hm : 0 < m}
  {hm' : 0 < m'}

-- The rational numbers that finite numbers are.

def signum : Sign → ℚ
  | .negative => -1
  | .positive => 1

theorem abs_signum (s : Sign) : |signum s| = 1 := by
  cases s <;> simp [signum]

theorem signum_div (s s' : Sign) : signum (s / s') = signum s / signum s' := by
  cases s <;> cases s' <;> simp [signum] <;> rfl

-- What is not finite counts as zero.
def valueOf : UnpackedFloat → ℚ
  | .finite s m e _ => signum s * (m * 2 ^ e)
  | _               => 0

def value (x : Float) : ℚ :=
  valueOf (unpacked x)

theorem value_of_finite (hx : unpacked x = .finite s m e hm) :
    value x = signum s * (m * 2 ^ e) := by
  rw [value, hx, valueOf]

theorem value_of_zero (hx : unpacked x = .zero s) : value x = 0 := by
  rw [value, hx]
  rfl

theorem value_ne_zero (hx : unpacked x = .finite s m e hm) : value x ≠ 0 := by
  rw [value_of_finite hx]
  have hpos : (0 : ℚ) < m * 2 ^ e := by positivity
  cases s <;> simp [signum, hpos.ne']

theorem isFinite_of_holds (h : Holds s r t u) : u.isFinite := by
  cases h <;> rfl

theorem valueOf_of_holds (h : Holds s r t u) : valueOf u = signum s * (r * 2 ^ t) := by
  cases h with
  | zero h       => simp [valueOf, h]
  | finite _ heq => rw [valueOf, heq]

-- Division.

theorem holds_div (s s' : Sign) (hm : 0 < m) (hm' : 0 < m') (e e' : Int) :
    ∃ r t, Nearest ((m * 2 ^ e) / (m' * 2 ^ e')) r t ∧
      Holds (s / s') r t ((UnpackedFloat.finite s m e hm).div format (.finite s' m' e' hm')) := by
  -- The numerator is shifted until the quotient has enough bits.
  obtain ⟨i, hi⟩ : ∃ i, i = min (e - e') (max (m.log2 + 1 + e - (m'.log2 + 1 + e') - 53) (-1074)) :=
    ⟨_, rfl⟩
  obtain ⟨k, hk⟩ : ∃ k : Nat, e - e' = i + k := ⟨(e - e' - i).toNat, by omega⟩
  have hdiv : (UnpackedFloat.finite s m e hm).div format (.finite s' m' e' hm') =
      roundWithAccuracy format (s / s') (m * 2 ^ k / m') i
        (accuracyOfFraction (m * 2 ^ k % m') m') := by
    have hshift : (e - e' - i).toNat = k := by omega
    rw [← Nat.shiftLeft_eq, ← hshift, hi]
    rfl
  have hbits : 2 ^ 52 ≤ m * 2 ^ k / m' ∨ i ≤ -1074 := by
    by_cases hlow : i ≤ -1074
    case pos => exact .inr hlow
    case neg =>
      left
      rw [Nat.le_div_iff_mul_le hm']
      have hlog : 52 + (m'.log2 + 1) ≤ m.log2 + k := by omega
      calc 2 ^ 52 * m' ≤ 2 ^ 52 * 2 ^ (m'.log2 + 1) :=
            Nat.mul_le_mul_left _ (Nat.le_of_lt Nat.lt_log2_self)
        _ = 2 ^ (52 + (m'.log2 + 1)) := (Nat.pow_add ..).symm
        _ ≤ 2 ^ (m.log2 + k) := Nat.pow_le_pow_right (by decide) hlog
        _ = 2 ^ m.log2 * 2 ^ k := Nat.pow_add ..
        _ ≤ m * 2 ^ k := Nat.mul_le_mul_right _ (Nat.log2_self_le hm.ne')
  have hvalue : ((m * 2 ^ k : Nat) : ℚ) / m' * 2 ^ i = (m * 2 ^ e) / (m' * 2 ^ e') := by
    have hpow : (2 : ℚ) ^ e = 2 ^ e' * (2 ^ i * 2 ^ k) := by
      rw [← zpow_natCast, ← zpow_add₀ (by norm_num), ← zpow_add₀ (by norm_num), ← hk]
      congr 1
      omega
    rw [hpow]
    push_cast
    field_simp
  rw [← hvalue, hdiv]
  exact holds_roundWithAccuracy (Locates.quotient _ hm') hbits

theorem unpacked_div (h : (unpacked x).div format (unpacked y) = u) (hc : Canonical u) :
    unpacked (x / y) = u := by
  subst h
  exact unpacked_ofModel hc

theorem two_pow_le_of_rounded (h : Rounded m e) (he : 971 < e) : (2 : ℚ) ^ 1024 ≤ m * 2 ^ e := by
  have hlead : 2 ^ 52 ≤ m := h.leading.resolve_right (by omega)
  calc (2 : ℚ) ^ 1024 = 2 ^ 52 * 2 ^ 972 := pow_add 2 52 972
    _ = (2 : ℚ) ^ 52 * 2 ^ (972 : ℤ) := rfl
    _ ≤ (m : ℚ) * 2 ^ e :=
      mul_le_mul (by exact_mod_cast hlead) (zpow_le_zpow_right₀ (by norm_num) he) (by positivity)
        (Nat.cast_nonneg m)

theorem unpacked_of_holds (h : Holds s r t u) :
    unpacked (.ofModel (.pack u)) = u ∨
      unpacked (.ofModel (.pack u)) = .infinity s ∧ (2 : ℚ) ^ 1024 ≤ r * 2 ^ t := by
  cases h with
  | zero => exact .inl (unpacked_ofModel (u := .zero s) trivial)
  | @finite m e hm h heq =>
    by_cases he : e ≤ 971
    case pos => exact .inl (unpacked_ofModel ⟨h.mantissa, h.exponent, he, h.leading⟩)
    case neg =>
      refine .inr ⟨(unpacked_ofModel_of_rounded hm h).resolve_left fun hfinite => ?_, ?_⟩
      · have hc := hfinite ▸ canonical_unpacked (.ofModel (.pack (.finite s m e hm)))
        exact he hc.2.2.1
      · exact heq ▸ two_pow_le_of_rounded h (by omega)

structure Rounds (v : ℚ) (x : Float) (s : Sign) (r : Nat) (t : Int) : Prop where
  sign    : v = signum s * |v|
  nearest : Nearest |v| r t
  outcome : x.isFinite ∧ value x = signum s * (r * 2 ^ t) ∨
    ¬x.isFinite ∧ (2 : ℚ) ^ 1024 ≤ r * 2 ^ t

theorem rounds_div_of_zero (hx : unpacked x = .zero s) (hy : unpacked y = .finite s' m e hm) :
    Rounds (value x / value y) (x / y) s 0 (-1074) := by
  have hquotient : unpacked (x / y) = .zero (s / s') :=
    unpacked_div (by rw [hx, hy]; rfl) trivial
  rw [value_of_zero hx, zero_div]
  refine ⟨by simp, ⟨.inr rfl, by simp⟩, .inl ⟨congrArg UnpackedFloat.isFinite hquotient, ?_⟩⟩
  simp [value_of_zero hquotient]

theorem rounds_div_of_finite (hx : unpacked x = .finite s m e hm)
    (hy : unpacked y = .finite s' m' e' hm') :
    ∃ r t, Rounds (value x / value y) (x / y) (s / s') r t := by
  have hdiv : x / y = .ofModel (.pack ((unpacked x).div format (unpacked y))) := rfl
  have hpos : (0 : ℚ) < (m * 2 ^ e) / (m' * 2 ^ e') := by positivity
  have hvalue : value x / value y = signum (s / s') * ((m * 2 ^ e) / (m' * 2 ^ e')) := by
    rw [value_of_finite hx, value_of_finite hy, signum_div, mul_div_mul_comm]
  have habs : |value x / value y| = (m * 2 ^ e) / (m' * 2 ^ e') := by
    rw [hvalue, abs_mul, abs_signum, one_mul, abs_of_pos hpos]
  obtain ⟨r, t, hnear, hholds⟩ := holds_div s s' hm hm' e e'
  refine ⟨r, t, by rw [habs, hvalue], habs ▸ hnear, ?_⟩
  rw [← hx, ← hy] at hholds
  rcases unpacked_of_holds hholds with h | ⟨h, hlarge⟩
  case inl =>
    refine .inl ⟨?_, by rw [value, hdiv, h, valueOf_of_holds hholds]⟩
    show (unpacked (x / y)).isFinite
    rw [hdiv, h]
    exact isFinite_of_holds hholds
  case inr =>
    have hinfinite : (x / y).isFinite = false :=
      congrArg UnpackedFloat.isFinite ((congrArg unpacked hdiv).trans h)
    exact .inr ⟨by simp [hinfinite], hlarge⟩

theorem exists_rounds_div (hx : x.isFinite) (hy : y.isFinite) (hne : value y ≠ 0) :
    ∃ s r t, Rounds (value x / value y) (x / y) s r t := by
  rcases zero_or_finite hy with ⟨_, hy⟩ | ⟨s', m', e', hm', hy⟩
  case inl => exact absurd (value_of_zero hy) hne
  case inr =>
    rcases zero_or_finite hx with ⟨s, hx⟩ | ⟨s, m, e, hm, hx⟩
    case inl => exact ⟨_, _, _, rounds_div_of_zero hx hy⟩
    case inr => exact ⟨_, rounds_div_of_finite hx hy⟩

theorem Rounds.value_eq {v : ℚ} (h : Rounds v x s r t) (hx : x.isFinite) :
    value x = signum s * (r * 2 ^ t) :=
  (h.outcome.resolve_right fun hnot => hnot.1 hx).2

-- Quotients that are integers.

theorem exists_int_mul_two_pow_iff : (∃ z : ℤ, (m : ℚ) * 2 ^ e = z) ↔ m % 2 ^ (-e).toNat = 0 := by
  rcases le_total 0 e with he | he
  case inl =>
    obtain ⟨k, rfl⟩ := Int.eq_ofNat_of_zero_le he
    refine iff_of_true ⟨m * 2 ^ k, ?_⟩ ?_
    · push_cast
      rfl
    · rw [Int.toNat_of_nonpos (by omega), Nat.pow_zero, Nat.mod_one]
  case inr =>
    obtain ⟨k, hk⟩ := Int.eq_ofNat_of_zero_le (Int.neg_nonneg.mpr he)
    obtain rfl : e = -k := by omega
    rw [← Nat.dvd_iff_mod_eq_zero, Int.neg_neg, Int.toNat_natCast, ← Int.natCast_dvd_natCast]
    refine exists_congr fun z => ?_
    rw [zpow_neg, zpow_natCast, ← div_eq_mul_inv, div_eq_iff (by positivity), Int.mul_comm]
    norm_cast

theorem exists_int_signum_mul_iff {v : ℚ} :
    (∃ z : ℤ, signum s * v = z) ↔ ∃ z : ℤ, v = z := by
  cases s with
  | negative =>
    simp only [signum, neg_one_mul]
    exact ⟨fun ⟨z, h⟩ => ⟨-z, by simp [← h]⟩, fun ⟨z, h⟩ => ⟨-z, by simp [h]⟩⟩
  | positive => simp only [signum, one_mul]

theorem isSome_toNat?_iff {b : Binary64} :
    b.toNat?.isSome ↔ ∃ z : ℤ, (b.mantissa : ℚ) * 2 ^ b.exponent = z := by
  rw [exists_int_mul_two_pow_iff, toNat?_eq]
  split <;> simp [*]

theorem isSome_toInt?_iff : (toInt? x).isSome ↔ x.isFinite ∧ ∃ z : ℤ, value x = z := by
  by_cases h : x.isFinite
  case neg => exact iff_of_false (fun h' => h (isFinite_of_toInt? h')) fun h' => h h'.1
  case pos =>
    have hsome : (toInt? x).isSome = (Binary64.ofFloat x).toNat?.isSome := by
      rw [toInt?, if_pos h]
      cases (Binary64.ofFloat x).toNat? <;> rfl
    rw [hsome, isSome_toNat?_iff]
    refine Iff.trans ?_ (and_iff_right h).symm
    rcases zero_or_finite h with ⟨s, hx⟩ | ⟨s, m, e, hm, hx⟩
    case inl =>
      rw [(magnitude_of_zero hx).2, value_of_zero hx]
      exact iff_of_true ⟨0, by simp⟩ ⟨0, by simp⟩
    case inr => rw [(magnitude_of_finite hx).2, value_of_finite hx, exists_int_signum_mul_iff]

theorem isFinite_of_div (hy : y.isFinite) (h : (x / y).isFinite) : x.isFinite := by
  have hfinite : (unpacked (x / y)).isFinite := h
  show (unpacked x).isFinite
  cases hx : unpacked x with
  | notANumber =>
    rw [unpacked_div (u := .notANumber) (by rw [hx]; rfl) trivial] at hfinite
    exact hfinite
  | infinity s =>
    rcases zero_or_finite hy with ⟨s', hy⟩ | ⟨s', m, e, hm, hy⟩ <;>
      rw [unpacked_div (u := .infinity (s / s')) (by rw [hx, hy]; rfl) trivial] at hfinite <;>
      exact hfinite
  | _ => rfl

-- Integers in terms of one unit, where the one that is divided has no more than 53 bits.
def Fits (x y : Float) : Prop :=
  ∃ a b k : ℤ, |a| < 2 ^ 53 ∧ |b| < 2 ^ 1075 ∧ value x = a * 2 ^ k ∧ value y = b * 2 ^ k

theorem abs_div_two_pow_lt_one {z : ℤ} {n : ℕ} (h : |z| < 2 ^ n) : |(z : ℚ)| / 2 ^ n < 1 := by
  rw [div_lt_one (by positivity)]
  exact_mod_cast h

theorem abs_mul_div_self {z : ℤ} {v : ℚ} (hv : v ≠ 0) : |z * v / v| = z.natAbs := by
  rw [mul_div_cancel_right₀ _ hv, ← Int.cast_abs, Int.abs_eq_natAbs]
  rfl

section Integer

variable (hx : x.isFinite) (hy : y.isFinite) (hne : value y ≠ 0)
include hx hy hne

theorem abs_div_mul_sub_le (hint : (toInt? (x / y)).isSome) (hzero : value (x / y) ≠ 0) :
    |value (x / y) * value y - value x| ≤ |value x| / 2 ^ 53 := by
  have ⟨hfinite, hint⟩ := isSome_toInt?_iff.mp hint
  have ⟨s, r, t, hrounds⟩ := exists_rounds_div hx hy hne
  have hquotient := hrounds.value_eq hfinite
  have hnonneg : (0 : ℚ) ≤ r * 2 ^ t := by positivity
  rw [hquotient] at hzero
  obtain ⟨z, hz⟩ := exists_int_signum_mul_iff.mp (hquotient ▸ hint)
  obtain ⟨n, rfl⟩ := Int.eq_ofNat_of_zero_le (a := z) (by exact_mod_cast hz ▸ hnonneg)
  have hpos : 0 < n := by
    refine Nat.pos_of_ne_zero fun hn => hzero ?_
    rw [hz, hn]
    simp
  have hdist : value (x / y) - value x / value y =
      signum s * (r * 2 ^ t - |value x / value y|) := by
    rw [mul_sub, ← hquotient, ← hrounds.sign]
  calc |value (x / y) * value y - value x|
      = |value (x / y) - value x / value y| * |value y| := by
        rw [← abs_mul, sub_mul, div_mul_cancel₀ _ hne]
    _ = |(r * 2 ^ t - |value x / value y|)| * |value y| := by
        rw [hdist, abs_mul, abs_signum, one_mul]
    _ ≤ |value x / value y| / 2 ^ 53 * |value y| := by
        gcongr
        exact hrounds.nearest.relative hz hpos
    _ = |value x| / 2 ^ 53 := by
        rw [div_mul_eq_mul_div, abs_div, div_mul_cancel₀ _ (abs_ne_zero.mpr hne)]

theorem abs_le_of_div_eq_zero (hfinite : (x / y).isFinite) (hzero : value (x / y) = 0) :
    |value x| ≤ |value y| / 2 ^ 1075 := by
  have ⟨s, r, t, hrounds⟩ := exists_rounds_div hx hy hne
  rw [hrounds.value_eq hfinite, mul_eq_zero] at hzero
  have hsmall := hrounds.nearest.le_of_eq_zero
    (hzero.resolve_left (by cases s <;> simp [signum]))
  rw [abs_div, div_le_iff₀ (abs_pos.mpr hne)] at hsmall
  exact hsmall.trans_eq (by rw [zpow_neg, ← div_eq_inv_mul]; rfl)

-- Quotients that are integers are found to be such.
theorem isSome_toInt?_div {z : ℤ} (hz : value x = z * value y)
    (hlt : |value x / value y| < 2 ^ 1023) : (toInt? (x / y)).isSome := by
  have ⟨s, r, t, hrounds⟩ := exists_rounds_div hx hy hne
  rcases hrounds.outcome with ⟨hfinite, hquotient⟩ | ⟨-, hlarge⟩
  case inr => exact absurd (hrounds.nearest.lt_two_pow hlt) (not_lt.mpr hlarge)
  case inl =>
    have hnear := hrounds.nearest
    rw [hz, abs_mul_div_self hne] at hnear
    have ⟨k, hk⟩ := hnear.exists_nat
    exact isSome_toInt?_iff.mpr
      ⟨hfinite, hquotient ▸ exists_int_signum_mul_iff.mpr ⟨k, by exact_mod_cast hk⟩⟩

theorem value_div_eq {z : ℤ} (hfinite : (x / y).isFinite) (hz : value x = z * value y)
    (hlt : |z| < 2 ^ 53) : value (x / y) = z := by
  have ⟨s, r, t, hrounds⟩ := exists_rounds_div hx hy hne
  have hsign := hrounds.sign
  have hnear := hrounds.nearest
  rw [hz, abs_mul_div_self hne] at hsign hnear
  rw [hrounds.value_eq hfinite, hnear.eq_of_lt (by zify; exact hlt), ← hsign,
    mul_div_cancel_right₀ _ hne]

-- Integers in terms of one unit are divided exactly.
theorem div_mul_eq (hint : (toInt? (x / y)).isSome) (hfits : Fits x y) :
    value (x / y) * value y = value x := by
  have ⟨hfinite, z, hz⟩ := isSome_toInt?_iff.mp hint
  have ⟨a, b, k, ha, hb, hvx, hvy⟩ := hfits
  have hunit : (0 : ℚ) < 2 ^ k := by positivity
  have hunits (c : ℚ) : |c * 2 ^ k| = |c| * 2 ^ k := by rw [abs_mul, abs_of_pos hunit]
  by_cases hzero : value (x / y) = 0
  case pos =>
    have hle := abs_le_of_div_eq_zero hx hy hne hfinite hzero
    rw [hvx, hvy, hunits, hunits, mul_div_right_comm, mul_le_mul_iff_left₀ hunit] at hle
    have ha : a = 0 := by
      refine eq_of_abs_sub_lt_one ?_
      rw [Int.cast_zero, sub_zero]
      exact hle.trans_lt (abs_div_two_pow_lt_one hb)
    rw [hzero, hvx, ha, Int.cast_zero, Rat.zero_mul, Rat.zero_mul]
  case neg =>
    have hle := abs_div_mul_sub_le hx hy hne hint hzero
    rw [hz, hvx, hvy, ← Rat.mul_assoc, ← sub_mul, hunits, hunits, mul_div_right_comm,
      mul_le_mul_iff_left₀ hunit] at hle
    have heq : z * b = a := by
      refine eq_of_abs_sub_lt_one ?_
      rw [Int.cast_mul]
      exact hle.trans_lt (abs_div_two_pow_lt_one ha)
    rw [hz, hvx, hvy, ← Rat.mul_assoc, ← Int.cast_mul, heq]

end Integer

end Double

end InfixAlgebra
