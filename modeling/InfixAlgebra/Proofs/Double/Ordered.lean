import InfixAlgebra.Proofs.Double.Finite

namespace InfixAlgebra

namespace Double

open Float.Model Float.Model.UnpackedFloat

variable {x y : Float} {u : UnpackedFloat} {s : Sign} {m m' n : Nat} {e e' i : Int} {hm : 0 < m}

-- What is no less than `m * 2 ^ e`, where the exponents are as low as they can be.
inductive Reaches (m : Nat) (e : Int) : UnpackedFloat → Prop
  | infinity : Reaches m e (.infinity .positive)
  | finite {m' : Nat} {e' : Int} {h : 0 < m'} : e < e' ∨ e = e' ∧ m ≤ m' →
    Reaches m e (.finite .positive m' e' h)

theorem le_iff_reaches (hx : unpacked x = .finite .positive m e hm) :
    Scalar.le x y ↔ Reaches m e (unpacked y) := by
  have hcompare {m' : Nat} {e' : Int} :
      ((compare e e').then (compare m m')).isLE ↔ e < e' ∨ e = e' ∧ m ≤ m' := by
    rw [Ordering.isLE_then_iff_or, Int.compare_eq_lt, Int.compare_eq_eq, Nat.isLE_compare]
  rw [le_eq, hx]
  cases unpacked y with
  | notANumber => exact ⟨nofun, nofun⟩
  | zero s     => exact ⟨nofun, nofun⟩
  | infinity s =>
    cases s with
    | negative => exact ⟨nofun, nofun⟩
    | positive => exact ⟨fun _ => .infinity, fun _ => rfl⟩
  | finite s m' e' h =>
    cases s with
    | negative => exact ⟨nofun, nofun⟩
    | positive =>
      refine ⟨fun h => .finite (hcompare.mp h), fun h => ?_⟩
      cases h with
      | finite h => exact hcompare.mpr h

theorem Reaches.trans {hm' : 0 < m'} (h : Reaches m e (.finite .positive m' e' hm'))
    (h' : Reaches m' e' u) : Reaches m e u := by
  cases h with
  | finite h =>
    cases h' with
    | infinity  => exact .infinity
    | finite h' => exact .finite (by omega)

-- Rounding.

theorem mantissa_ofMantissaAndAccuracy (m : Nat) (a : Accuracy) :
    (ExtendedMantissa.ofMantissaAndAccuracy m a).mantissa = m := by
  unfold ExtendedMantissa.ofMantissaAndAccuracy
  split <;> rfl

theorem mantissa_shiftRight (em : ExtendedMantissa) (k : Nat) :
    (em >>> k).mantissa = em.mantissa / 2 ^ k := by
  induction k with
  | zero => exact (Nat.div_one _).symm
  | succ k ih =>
    rw [Nat.pow_succ, ← Nat.div_div_eq_div_mul, ← ih]
    rfl

theorem roundedMantissa_bounds (em : ExtendedMantissa) :
    em.mantissa ≤ em.roundedMantissa ∧ em.roundedMantissa ≤ em.mantissa + 1 := by
  unfold ExtendedMantissa.roundedMantissa Accuracy.roundToNearestEven
  split <;> omega

-- The bits that are left of `m * 2 ^ i` when it is cut off below the exponent `t`.
def cutOff (m : Nat) (i t : Int) : Nat :=
  m * 2 ^ (i - t).toNat / 2 ^ (t - i).toNat

def target (m : Nat) (i : Int) : Int :=
  max (m.log2 + 1 + i - 53) (-1074)

theorem cutOff_lt (m : Nat) (i : Int) : cutOff m i (target m i) < 2 ^ 53 := by
  rw [cutOff, Nat.div_lt_iff_lt_mul (Nat.two_pow_pos _), ← Nat.pow_add]
  have hlog : m.log2 + 1 + (i - target m i).toNat ≤ 53 + (target m i - i).toNat := by
    unfold target
    omega
  calc m * 2 ^ (i - target m i).toNat
      < 2 ^ (m.log2 + 1) * 2 ^ (i - target m i).toNat :=
        Nat.mul_lt_mul_of_pos_right Nat.lt_log2_self (Nat.two_pow_pos _)
    _ = 2 ^ (m.log2 + 1 + (i - target m i).toNat) := (Nat.pow_add ..).symm
    _ ≤ 2 ^ (53 + (target m i - i).toNat) := Nat.pow_le_pow_right (by decide) hlog

theorem le_cutOff (hm : 0 < m) : 2 ^ 52 ≤ cutOff m i (target m i) ∨ target m i = -1074 := by
  by_cases ht : target m i = -1074
  case pos => exact .inr ht
  case neg =>
    left
    have hlog : 52 + (target m i - i).toNat ≤ m.log2 + (i - target m i).toNat := by
      unfold target at *
      omega
    rw [cutOff, Nat.le_div_iff_mul_le (Nat.two_pow_pos _), ← Nat.pow_add]
    calc 2 ^ (52 + (target m i - i).toNat)
        ≤ 2 ^ (m.log2 + (i - target m i).toNat) := Nat.pow_le_pow_right (by decide) hlog
      _ = 2 ^ m.log2 * 2 ^ (i - target m i).toNat := Nat.pow_add ..
      _ ≤ m * 2 ^ (i - target m i).toNat :=
        Nat.mul_le_mul_right _ (Nat.log2_self_le (Nat.ne_of_gt hm))

-- Finite numbers but for their exponent, which may be too large.
structure Rounded (m : Nat) (e : Int) : Prop where
  mantissa : m < 2 ^ 53
  exponent : -1074 ≤ e
  leading  : 2 ^ 52 ≤ m ∨ e = -1074

theorem target_mul_two_pow (hm : 0 < m) (k : Nat) : target (m * 2 ^ k) (i - k) = target m i := by
  rw [target, target, log2_mul_two_pow hm]
  omega

theorem shiftToTargetExponent_eq (m : Nat) (i : Int) (a : Accuracy) :
    shiftToTargetExponent format m i a =
      (ExtendedMantissa.ofMantissaAndAccuracy m a >>> (target m i - i).toNat,
        i + (target m i - i).toNat) :=
  rfl

-- Bits that are one too many lose the last one, which is zero.
theorem exists_shiftToTargetExponent (hm : 0 < m) (hle : m ≤ 2 ^ 53) (hlow : -1074 ≤ i)
    (hlead : 2 ^ 52 ≤ m ∨ i = -1074) :
    ∃ em e, shiftToTargetExponent format m i .exact = (em, e) ∧ 0 < em.mantissa ∧
      Rounded em.mantissa e ∧ i ≤ e ∧ em.mantissa * 2 ^ (e - i).toNat = m := by
  refine ⟨_, _, shiftToTargetExponent_eq m i .exact, ?_⟩
  rw [mantissa_shiftRight, mantissa_ofMantissaAndAccuracy]
  rcases Nat.lt_or_eq_of_le hle with hlt | rfl
  case inl =>
    have hlog : m.log2 < 53 := (Nat.log2_lt (Nat.ne_of_gt hm)).mpr hlt
    have hshift : (target m i - i).toNat = 0 := by
      unfold target
      omega
    rw [hshift, Nat.pow_zero, Nat.div_one, Int.natCast_zero, Int.add_zero, Int.sub_self]
    exact ⟨hm, ⟨hlt, hlow, hlead⟩, Int.le_refl i, Nat.mul_one m⟩
  case inr =>
    have hlog : Nat.log2 (2 ^ 53) = 53 := by decide
    have hshift : (target (2 ^ 53) i - i).toNat = 1 := by
      unfold target
      omega
    rw [hshift, add_sub_cancel_left]
    exact ⟨by decide, ⟨by decide, by omega, .inl (by decide)⟩, by omega, by decide⟩

-- What is cut off may add one to the last bit.
theorem round_eq (hm : 0 < m) (hi : -1074 ≤ i) :
    ∃ m' e' h, UnpackedFloat.round format s m i = .finite s m' e' h ∧ Rounded m' e' ∧
      (target m i < e' ∨ target m i = e' ∧ cutOff m i (target m i) ≤ m') := by
  have hlt := cutOff_lt m i
  have hle := le_cutOff (i := i) hm
  have hlow : -1074 ≤ target m i := le_max_right ..
  generalize ht : target m i = t at *
  have hpos : 0 < cutOff m i t := by
    rcases hle with hle | rfl
    case inl => omega
    case inr =>
      have hshift : (-1074 - i).toNat = 0 := by omega
      rw [cutOff, hshift, Nat.pow_zero, Nat.div_one]
      exact Nat.mul_pos hm (Nat.two_pow_pos _)
  have hshift : shiftToTargetExponent format (m * 2 ^ (i - t).toNat) (i - (i - t).toNat) .exact =
      (ExtendedMantissa.ofMantissaAndAccuracy (m * 2 ^ (i - t).toNat) .exact >>> (t - i).toNat,
        t) := by
    rw [shiftToTargetExponent_eq, target_mul_two_pow hm, ht]
    have hk : (t - (i - (i - t).toNat)).toNat = (t - i).toNat := by omega
    rw [hk]
    exact congrArg _ (by omega)
  have hbounds := roundedMantissa_bounds
    (ExtendedMantissa.ofMantissaAndAccuracy (m * 2 ^ (i - t).toNat) .exact >>> (t - i).toNat)
  rw [mantissa_shiftRight, mantissa_ofMantissaAndAccuracy] at hbounds
  change cutOff m i t ≤ _ ∧ _ ≤ cutOff m i t + 1 at hbounds
  have htarget : format.targetExponent (totalExponent m i) = t := ht
  simp only [UnpackedFloat.round, decreaseExponent, htarget, Nat.shiftLeft_eq, roundWithAccuracy,
    hshift]
  obtain ⟨em, e', heq, hem, hrounded, hle', hvalue⟩ := exists_shiftToTargetExponent
    (Nat.lt_of_lt_of_le hpos hbounds.1) (by omega) hlow (by omega)
  simp only [heq]
  refine ⟨em.mantissa, e', hem, dif_neg (Nat.ne_of_gt hem), hrounded, ?_⟩
  rcases Int.lt_or_eq_of_le hle' with hlt' | rfl
  case inl => exact .inl hlt'
  case inr =>
    rw [Int.sub_self, Int.toNat_zero, Nat.pow_zero, Nat.mul_one] at hvalue
    exact .inr ⟨rfl, by omega⟩

-- Numbers whose exponent is too large become infinite.
theorem unpacked_ofModel_of_rounded (hm : 0 < m) (h : Rounded m e) :
    unpacked (.ofModel (.pack (.finite s m e hm))) = .finite s m e hm ∨
      unpacked (.ofModel (.pack (.finite s m e hm))) = .infinity s := by
  by_cases he : e ≤ 971
  case pos => exact .inl (unpacked_ofModel ⟨h.mantissa, h.exponent, he, h.leading⟩)
  case neg =>
    right
    have hpack : UnpackedFloat.pack format (.finite s m e hm) =
        UnpackedFloat.pack format (.infinity s) := by
      have hlarge : 2 ^ 11 ≤ (e + 1023 + 52).toNat + 1 := by omega
      exact if_pos hlarge
    exact (congrArg (UnpackedFloat.unpack format) hpack).trans (unpack_pack trivial)

-- Rounding does not lead below a number that is not rounded itself.
theorem reaches_round (hc : Canonical (.finite .positive m e hm)) (hi : -1074 ≤ i) (hn : 0 < n)
    (hle : m * 2 ^ (e - i).toNat ≤ n * 2 ^ (i - e).toNat) :
    Reaches m e (unpacked (.ofModel (.pack (.round format .positive n i)))) := by
  have htarget : e ≤ target n i := by
    have hlog : (m * 2 ^ (e - i).toNat).log2 ≤ (n * 2 ^ (i - e).toNat).log2 := by
      rw [Nat.le_log2 (Nat.ne_of_gt (Nat.mul_pos hn (Nat.two_pow_pos _)))]
      refine Nat.le_trans (Nat.log2_self_le (Nat.ne_of_gt ?_)) hle
      exact Nat.mul_pos hm (Nat.two_pow_pos _)
    have he : target m e = e := targetExponent_of_canonical hc
    rw [log2_mul_two_pow hm, log2_mul_two_pow hn] at hlog
    unfold target at *
    omega
  have hcut : e = target n i → m ≤ cutOff n i (target n i) := by
    intro he
    rw [← he, cutOff]
    exact (Nat.le_div_iff_mul_le (Nat.two_pow_pos _)).mpr hle
  obtain ⟨m', e', h', heq, hrounded, hreach⟩ := round_eq (s := .positive) hn hi
  rw [heq]
  rcases unpacked_ofModel_of_rounded (s := .positive) h' hrounded with h | h
  case inl =>
    rw [h]
    exact .finite (by omega)
  case inr =>
    rw [h]
    exact .infinity

-- Sums of positive numbers are added with the lower of their exponents.
theorem add_finite {m' : Nat} {e' : Int} {hm' : 0 < m'} :
    (UnpackedFloat.finite .positive m e hm).add format (.finite .positive m' e' hm') =
      .round format .positive (m * 2 ^ (e - min e e').toNat + m' * 2 ^ (e' - min e e').toNat)
        (min e e') := by
  have hpos : 0 < m * 2 ^ (e - min e e').toNat := Nat.mul_pos hm (Nat.two_pow_pos _)
  have hcompare : compare
      ((m * 2 ^ (e - min e e').toNat + m' * 2 ^ (e' - min e e').toNat : Nat) : Int) 0 = .gt :=
    Int.compare_eq_gt.mpr (by omega)
  simp only [UnpackedFloat.add, decreaseExponent, Nat.shiftLeft_eq, Sign.apply,
    ← Int.natCast_add, UnpackedFloat.normalize, hcompare, Int.toNat_natCast]

-- The sum of positive numbers is infinite or rounded.
theorem unpacked_add {p q : Nat} {i j : Int} (hx : Reaches p i (unpacked x))
    (hy : Reaches q j (unpacked y)) :
    unpacked (x + y) = .infinity .positive ∨ ∃ m e hm m' e' hm',
      unpacked x = .finite .positive m e hm ∧ unpacked y = .finite .positive m' e' hm' ∧
        unpacked (x + y) = unpacked (.ofModel (.pack (.round format .positive
          (m * 2 ^ (e - min e e').toNat + m' * 2 ^ (e' - min e e').toNat) (min e e')))) := by
  have infinite : unpacked (.ofModel (.pack (.infinity .positive))) = .infinity .positive :=
    unpacked_ofModel (u := .infinity .positive) trivial
  have hadd : unpacked (x + y) =
      unpacked (.ofModel (.pack ((unpacked x).add format (unpacked y)))) := rfl
  generalize unpacked x = u at *
  generalize unpacked y = v at *
  rw [hadd]
  cases hx with
  | infinity => cases hy <;> exact .inl infinite
  | finite =>
    cases hy with
    | infinity => exact .inl infinite
    | finite   => exact .inr ⟨_, _, _, _, _, _, rfl, rfl, by rw [add_finite]⟩

theorem Reaches.add {p q : Nat} {i j : Int} (hx : Reaches p i (unpacked x))
    (hy : Reaches q j (unpacked y)) : Reaches p i (unpacked (x + y)) := by
  have hcx := canonical_unpacked x
  have hcy := canonical_unpacked y
  obtain h | ⟨m, e, hm, m', e', _, hxm, hym, h⟩ := unpacked_add hx hy <;> rw [h]
  · exact .infinity
  · rw [hxm] at hx hcx
    rw [hym] at hcy
    have ⟨_, hlow, _⟩ := hcx
    have ⟨_, hlow', _⟩ := hcy
    have hpos : 0 < m * 2 ^ (e - min e e').toNat := Nat.mul_pos hm (Nat.two_pow_pos _)
    have hzero : (min e e' - e).toNat = 0 := by omega
    refine hx.trans (reaches_round hcx (by omega) (Nat.add_pos_left hpos _) ?_)
    rw [hzero, Nat.pow_zero, Nat.mul_one]
    exact Nat.le_add_right ..

-- One and one make two.
theorem Reaches.two (hx : Reaches (2 ^ 52) (-52) (unpacked x))
    (hy : Reaches (2 ^ 52) (-52) (unpacked y)) : Reaches (2 ^ 52) (-51) (unpacked (x + y)) := by
  have hcx := canonical_unpacked x
  have hcy := canonical_unpacked y
  obtain h | ⟨m, e, hm, m', e', _, hxm, hym, h⟩ := unpacked_add hx hy <;> rw [h]
  · exact .infinity
  · rw [hxm] at hx hcx
    rw [hym] at hy hcy
    have ⟨_, _, _, hlead⟩ := hcx
    have ⟨_, _, _, hlead'⟩ := hcy
    cases hx with
    | finite hx =>
      cases hy with
      | finite hy =>
        have hm : 2 ^ 52 ≤ m := by omega
        have hm' : 2 ^ 52 ≤ m' := by omega
        have hle : m ≤ m * 2 ^ (e - min e e').toNat :=
          Nat.le_mul_of_pos_right _ (Nat.two_pow_pos _)
        have hle' : m' ≤ m' * 2 ^ (e' - min e e').toNat :=
          Nat.le_mul_of_pos_right _ (Nat.two_pow_pos _)
        have hc : Canonical (.finite .positive (2 ^ 52) (-51) (by decide)) :=
          ⟨by decide, by decide, by decide, .inl (by decide)⟩
        refine reaches_round hc (by omega) (by omega) ?_
        have hsmall : (-51 - min e e').toNat ≤ 1 := by omega
        calc 2 ^ 52 * 2 ^ (-51 - min e e').toNat
            ≤ 2 ^ 52 * 2 ^ 1 := Nat.mul_le_mul_left _ (Nat.pow_le_pow_right (by decide) hsmall)
          _ ≤ m * 2 ^ (e - min e e').toNat + m' * 2 ^ (e' - min e e').toNat := by omega
          _ ≤ _ := Nat.le_mul_of_pos_right _ (Nat.two_pow_pos _)

-- Natural numbers.

theorem toNat?_eq {b : Binary64} :
    b.toNat? = if b.mantissa % 2 ^ (-b.exponent).toNat = 0 then
      some (b.mantissa / 2 ^ (-b.exponent).toNat * 2 ^ b.exponent.toNat) else none :=
  rfl

theorem toInt?_of_finite (hx : unpacked x = .finite .positive m e hm) :
    toInt? x = (Binary64.toNat? ⟨m, e⟩).map Int.ofNat := by
  have hfinite : x.isFinite := congrArg UnpackedFloat.isFinite hx
  have ⟨hsign, heq⟩ := magnitude_of_finite hx
  rw [toInt?, if_pos hfinite, heq, hsign]
  cases Binary64.toNat? ⟨m, e⟩ <;> rfl

theorem toInt?_of_zero (hx : unpacked x = .zero .positive) : toInt? x = some 0 := by
  have hfinite : x.isFinite := congrArg UnpackedFloat.isFinite hx
  have ⟨hsign, hzero⟩ := magnitude_of_zero hx
  rw [toInt?, if_pos hfinite, toNat?_eq, hzero, hsign, Nat.zero_mod, if_pos rfl, Nat.zero_div,
    Nat.zero_mul]
  rfl

theorem toInt?_ofNat (hlt : n < 2 ^ 53) : toInt? (Float.ofNat n) = some n := by
  rcases Nat.eq_zero_or_pos n with rfl | hn
  case inl => exact ofNat_zero ▸ toInt?_of_zero unpacked_zero
  case inr =>
    rw [toInt?_of_finite (unpacked_ofNat hn hlt), toNat?_eq]
    simp

-- An integer is known to be no less than another one by its leading bit.
theorem le_toNat? {b : Binary64} {k : Nat} (hn : 0 < n) (hlt : n < 2 ^ 52)
    (hlead : 2 ^ 52 ≤ b.mantissa ∨ b.exponent = -1074)
    (hle : -(52 - n.log2 : Nat) < b.exponent ∨
      -(52 - n.log2 : Nat) = b.exponent ∧ n * 2 ^ (52 - n.log2) ≤ b.mantissa)
    (hk : b.toNat? = some k) : n ≤ k := by
  have hlog : n.log2 < 52 := (Nat.log2_lt (Nat.ne_of_gt hn)).mpr hlt
  rw [toNat?_eq] at hk
  split at hk
  case isFalse => cases hk
  case isTrue =>
    cases hk
    refine Nat.le_trans ?_ (Nat.le_mul_of_pos_right _ (Nat.two_pow_pos _))
    rw [Nat.le_div_iff_mul_le (Nat.two_pow_pos _)]
    rcases hle with he | ⟨he, hm⟩
    case inr =>
      have hshift : (-b.exponent).toNat = 52 - n.log2 := by omega
      rwa [hshift]
    case inl =>
      have hlead : 2 ^ 52 ≤ b.mantissa := hlead.resolve_right (by omega)
      have hshift : n.log2 + 1 + (-b.exponent).toNat ≤ 52 := by omega
      calc n * 2 ^ (-b.exponent).toNat
          ≤ 2 ^ (n.log2 + 1) * 2 ^ (-b.exponent).toNat :=
            Nat.mul_le_mul_right _ (Nat.le_of_lt Nat.lt_log2_self)
        _ = 2 ^ (n.log2 + 1 + (-b.exponent).toNat) := (Nat.pow_add ..).symm
        _ ≤ 2 ^ 52 := Nat.pow_le_pow_right (by decide) hshift
        _ ≤ b.mantissa := hlead

theorem le_of_toInt? {k : Int} (hn : 0 < n) (hlt : n < 2 ^ 52)
    (hle : Scalar.le (Float.ofNat n) x) (hk : toInt? x = some k) : n ≤ k := by
  rw [le_iff_reaches (unpacked_ofNat hn (by omega))] at hle
  have hc := canonical_unpacked x
  generalize hx : unpacked x = u at hle hc
  cases hle with
  | infinity =>
    have hfinite : x.isFinite = false := congrArg UnpackedFloat.isFinite hx
    rw [toInt?, hfinite] at hk
    cases hk
  | @finite m e _ hle =>
    rw [toInt?_of_finite hx, Option.map_eq_some_iff] at hk
    have ⟨_, _, _, hlead⟩ := hc
    have ⟨l, hl, hk⟩ := hk
    have hnl : n ≤ l := le_toNat? (b := ⟨m, e⟩) hn hlt hlead hle hl
    rw [← hk]
    exact Int.ofNat_le.mpr hnl

theorem le_ofNat_iff (hn : 0 < n) (hlt : n < 2 ^ 53) :
    Scalar.le (Float.ofNat n) x ↔
      Reaches (n * 2 ^ (52 - n.log2)) (-(52 - n.log2 : Nat)) (unpacked x) :=
  le_iff_reaches (unpacked_ofNat hn hlt)

theorem ofNat_one : Float.ofNat 1 = 1 :=
  eq_of_unpacked ((unpacked_ofNat (by decide) (by decide)).trans unpacked_one.symm)

theorem one_le_iff : Scalar.le (Float.ofNat 1) x ↔ Reaches (2 ^ 52) (-52) (unpacked x) := by
  rw [ofNat_one]
  exact le_iff_reaches unpacked_one

theorem two_le_iff : Scalar.le (Float.ofNat 2) x ↔ Reaches (2 ^ 52) (-51) (unpacked x) :=
  le_ofNat_iff (by decide) (by decide)

theorem not_lt_zero_of_reaches (h : Reaches m e (unpacked x)) : ¬Scalar.lt x 0 := by
  rw [lt_eq, unpacked_zero]
  generalize unpacked x = u at h
  cases h <;> nofun

theorem ofNat_le_ofNat (hm : 0 < m) (hmn : m ≤ n) (hlt : n < 2 ^ 52) :
    Scalar.le (Float.ofNat m) (Float.ofNat n) := by
  rw [le_ofNat_iff hm (by omega), unpacked_ofNat (by omega) (by omega)]
  have hlog : m.log2 ≤ n.log2 := by
    rw [Nat.le_log2 (by omega)]
    exact Nat.le_trans (Nat.log2_self_le (Nat.ne_of_gt hm)) hmn
  have hsmall : n.log2 < 52 := (Nat.log2_lt (by omega)).mpr hlt
  rcases Nat.lt_or_eq_of_le hlog with hlog | hlog
  case inl => exact .finite (.inl (by omega))
  case inr =>
    rw [hlog]
    exact .finite (.inr ⟨rfl, Nat.mul_le_mul_right _ hmn⟩)

end Double

end InfixAlgebra
