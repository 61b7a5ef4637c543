import Mathlib
import InfixAlgebra.Scalar.Double

namespace InfixAlgebra

namespace Double

open Float.Model Float.Model.UnpackedFloat

abbrev format : Format := .binary64

variable {b : BitVec 64} {s : Sign} {m : Nat} {e : Int} {u : UnpackedFloat}

def signBit (s : Sign) : Nat :=
  match s with
  | .negative => 1
  | .positive => 0

theorem toNat_toBitVec : s.toBitVec.toNat = signBit s := by
  cases s <;> rfl

theorem signBit_ofBitVec (v : BitVec 1) : signBit (.ofBitVec v) = v.toNat := by
  revert v
  decide

theorem signBit_inj {s' : Sign} (h : signBit s = signBit s') : s = s' := by
  cases s <;> cases s' <;> first | rfl | cases h

theorem signBit_le : signBit s ≤ 1 := by
  cases s <;> decide

theorem toNat_append {j k : Nat} (v : BitVec j) (w : BitVec k) :
    (v ++ w).toNat = v.toNat * 2 ^ k + w.toNat := by
  rw [BitVec.toNat_append, ← Nat.shiftLeft_add_eq_or_of_lt w.isLt, Nat.shiftLeft_eq]

-- The three fields of a word, from the highest bits to the lowest.

theorem toNat_packComponents (v : BitVec 11) (w : BitVec 52) :
    (packComponents format s v w).toNat = signBit s * 2 ^ 63 + v.toNat * 2 ^ 52 + w.toNat := by
  rw [packComponents, toNat_append, toNat_append, toNat_toBitVec]
  omega

theorem toNat_unpackMantissa : (@unpackMantissa format b).toNat = b.toNat % 2 ^ 52 := by
  simp [unpackMantissa]

theorem toNat_unpackExponent :
    (@unpackExponent format b).toNat = b.toNat / 2 ^ 52 % 2 ^ 11 := by
  simp [unpackExponent, Nat.shiftRight_eq_div_pow]

theorem toNat_unpackSign : (@unpackSign format b).toNat = b.toNat / 2 ^ 63 := by
  have hb := b.isLt
  simp [unpackSign, Nat.shiftRight_eq_div_pow]
  omega

-- What a word unpacks to, told by its fields.
theorem unpack_eq (b : BitVec 64) :
    let s := Sign.ofBitVec (@unpackSign format b)
    let e : Nat := b.toNat / 2 ^ 52 % 2 ^ 11
    let m : Nat := b.toNat % 2 ^ 52
    UnpackedFloat.unpack format b =
      if e = 2047 then
        if m = 0 then .infinity s else .notANumber
      else if e = 0 then
        if h : m = 0 then .zero s else .finite s m (-1074) (Nat.pos_of_ne_zero h)
      else
        .finite s (2 ^ 52 + m) (e - 1075) (by omega) := by
  intro s e m
  have he : @unpackExponent format b = -1#_ ↔ e = 2047 := by
    rw [← BitVec.toNat_inj, toNat_unpackExponent]
    rfl
  have he₀ : @unpackExponent format b = 0#_ ↔ e = 0 := by
    rw [← BitVec.toNat_inj, toNat_unpackExponent]
    rfl
  have hm : @unpackMantissa format b = 0#_ ↔ m = 0 := by
    rw [← BitVec.toNat_inj, toNat_unpackMantissa]
    rfl
  unfold UnpackedFloat.unpack
  simp only [he, he₀, hm, toNat_append, toNat_unpackExponent, toNat_unpackMantissa]
  split
  case isTrue => rfl
  case isFalse =>
    split
    case isTrue h₀ =>
      have hbias : (format.exponentBias : Int) = 1023 := rfl
      have he : ((e : Nat) : Int) - (format.exponentBias + format.mantissaBitsWithoutImplicit) + 1 =
          -1074 := by
        rw [h₀, hbias]
        rfl
      simp only [e, he]
      rfl
    case isFalse => rfl

-- What unpacking a word gives: a number whose leading bit is as high as the exponent admits.
def Canonical : UnpackedFloat → Prop
  | .finite _ m e _ => m < 2 ^ 53 ∧ -1074 ≤ e ∧ e ≤ 971 ∧ (2 ^ 52 ≤ m ∨ e = -1074)
  | _               => True

theorem canonical_unpack (b : BitVec 64) : Canonical (UnpackedFloat.unpack format b) := by
  rw [unpack_eq]
  have hb := b.isLt
  split
  case isTrue  => split <;> trivial
  case isFalse =>
    split
    case isTrue =>
      split
      case isTrue  => trivial
      case isFalse => exact ⟨by omega, by decide, by decide, .inr rfl⟩
    case isFalse => exact ⟨by omega, by omega, by omega, .inl (by omega)⟩

theorem toNat_pack_zero : (UnpackedFloat.pack format (.zero s)).toNat = signBit s * 2 ^ 63 := by
  cases s <;> rfl

theorem toNat_pack_infinity :
    (UnpackedFloat.pack format (.infinity s)).toNat = signBit s * 2 ^ 63 + 2047 * 2 ^ 52 := by
  cases s <;> rfl

theorem log2_add_one_eq_iff (h : 0 < m) : m.log2 + 1 = 53 ↔ 2 ^ 52 ≤ m ∧ m < 2 ^ 53 := by
  have hle := Nat.le_log2 (n := m) (k := 52) (by omega)
  have hlt := Nat.log2_lt (n := m) (k := 53) (by omega)
  omega

-- The leading bit is not stored.
theorem toNat_pack_finite {h : 0 < m} (hc : Canonical (.finite s m e h)) :
    (UnpackedFloat.pack format (.finite s m e h)).toNat =
      signBit s * 2 ^ 63 + if m < 2 ^ 52 then m else (e + 1075).toNat * 2 ^ 52 + (m - 2 ^ 52) := by
  have ⟨hm, hlow, hhigh, hlead⟩ := hc
  have hlog := log2_add_one_eq_iff h
  have hexp : (e + format.exponentBias + format.mantissaBitsWithoutImplicit).toNat =
      (e + 1075).toNat := by
    show (e + 1023 + 52).toNat = (e + 1075).toNat
    omega
  have hlarge : ¬2 ^ 11 ≤ (e + 1075).toNat + 1 := by omega
  simp only [UnpackedFloat.pack, hexp, hlarge, if_false]
  split
  case isTrue hn =>
    have hn' : 2 ^ 52 ≤ m := (hlog.mp hn).1
    rw [if_neg (Nat.not_lt.mpr hn'), toNat_packComponents, BitVec.toNat_ofNat, BitVec.toNat_ofNat]
    omega
  case isFalse hn =>
    have hn' : m < 2 ^ 52 := Nat.lt_of_not_le fun hle => hn (hlog.mpr ⟨hle, hm⟩)
    rw [if_pos hn', toNat_packComponents, BitVec.toNat_ofNat, BitVec.toNat_ofNat]
    omega

theorem signBit_unpackSign :
    signBit (.ofBitVec (@unpackSign format b)) = b.toNat / 2 ^ 63 := by
  rw [signBit_ofBitVec, toNat_unpackSign]

theorem pack_unpack (hv : format.Valid b) :
    UnpackedFloat.pack format (UnpackedFloat.unpack format b) = b := by
  have hb := b.isLt
  have hs := signBit_unpackSign (b := b)
  have hc := canonical_unpack b
  apply BitVec.eq_of_toNat_eq
  rw [unpack_eq] at hc ⊢
  split
  case isTrue he =>
    split
    case isTrue hm => rw [toNat_pack_infinity, hs]; omega
    case isFalse hm =>
      refine congrArg BitVec.toNat (hv.eq_packedNaN ?_ ?_).symm
      · rw [← BitVec.toNat_inj, toNat_unpackExponent]
        exact he
      · intro h
        rw [← BitVec.toNat_inj, toNat_unpackMantissa] at h
        exact hm h
  case isFalse he =>
    split
    case isTrue he₀ =>
      split
      case isTrue hm => rw [toNat_pack_zero, hs]; omega
      case isFalse hm =>
        rw [if_neg he, if_pos he₀, dif_neg hm] at hc
        rw [toNat_pack_finite hc, hs, if_pos (by omega)]
        omega
    case isFalse he₀ =>
      rw [if_neg he, if_neg he₀] at hc
      rw [toNat_pack_finite hc, hs, if_neg (by omega)]
      omega

theorem finite_congr {m' : Nat} {e' : Int} {h : 0 < m} {h' : 0 < m'} (hm : m = m') (he : e = e') :
    UnpackedFloat.finite s m e h = .finite s m' e' h' := by
  subst hm he
  rfl

theorem unpack_pack (hc : Canonical u) :
    UnpackedFloat.unpack format (UnpackedFloat.pack format u) = u := by
  have hs := signBit_unpackSign (b := UnpackedFloat.pack format u)
  have hle {s : Sign} := signBit_le (s := s)
  rw [unpack_eq]
  cases u with
  | notANumber => rfl
  | infinity s => cases s <;> rfl
  | zero s     => cases s <;> rfl
  | finite s m e hm =>
    have hp := toNat_pack_finite hc
    have ⟨hlt, hlow, hhigh, hlead⟩ := hc
    have hsign : Sign.ofBitVec
        (@unpackSign format (UnpackedFloat.pack format (.finite s m e hm))) = s := by
      apply signBit_inj
      rw [hs, hp]
      have := @hle s
      split <;> omega
    have := @hle s
    rw [hsign]
    split at hp
    case isTrue hn =>
      have he : e = -1074 := hlead.resolve_left (Nat.not_le.mpr hn)
      rw [if_neg (by omega), if_pos (by omega), dif_neg (by omega)]
      exact finite_congr (by omega) he.symm
    case isFalse hn =>
      rw [if_neg (by omega), if_neg (by omega)]
      exact finite_congr (by omega) (by omega)

end Double

end InfixAlgebra
