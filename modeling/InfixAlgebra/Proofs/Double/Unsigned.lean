import InfixAlgebra.Proofs.Double.Sign

namespace InfixAlgebra

namespace Double

open Float.Model Float.Model.UnpackedFloat

variable {x y : Float} {u v : UnpackedFloat} {s : Sign}

-- What is not a number counts as having no sign.
def Unsigned : UnpackedFloat → Prop
  | .notANumber                                => True
  | .infinity s | .zero s | .finite s _ _ _    => s = .positive

theorem toNat_pack_lt (hu : Unsigned u) : (UnpackedFloat.pack format u).toNat < 2 ^ 63 := by
  cases u with
  | notANumber => decide
  | infinity s =>
    cases hu
    decide
  | zero s =>
    cases hu
    decide
  | finite s m e h =>
    cases hu
    have hpos (v : BitVec 11) (w : BitVec 52) :
        (packComponents format .positive v w).toNat < 2 ^ 63 := by
      rw [toNat_packComponents, signBit]
      omega
    simp only [UnpackedFloat.pack, packedInfinity]
    split
    case isTrue => exact hpos ..
    case isFalse => split <;> exact hpos ..

theorem isNegative_ofModel (hu : Unsigned u) :
    Binary64.isNegative (.ofModel (.pack u)) = false := by
  have hlt := toNat_pack_lt hu
  show ((UnpackedFloat.pack format u).toNat / 2 ^ 63 == 1) = false
  rw [beq_eq_false_iff_ne]
  omega

theorem unsigned_unpacked (hx : Binary64.isNegative x = false) : Unsigned (unpacked x) := by
  have hlt := x.toBits.toBitVec.isLt
  have hs : Sign.ofBitVec (@unpackSign format x.toBits.toBitVec) = .positive := by
    apply signBit_inj
    rw [signBit_unpackSign, signBit]
    have hne : x.toBits.toBitVec.toNat / 2 ^ 63 ≠ 1 := beq_eq_false_iff_ne.mp hx
    omega
  rw [unpacked_eq, unpack_eq, hs]
  split
  case isTrue  => split <;> trivial
  case isFalse =>
    split
    case isTrue  => split <;> rfl
    case isFalse => rfl

theorem unsigned_roundWithAccuracy {m : Nat} {e : Int} {a : Accuracy} :
    Unsigned (roundWithAccuracy format .positive m e a) := by
  simp only [roundWithAccuracy]
  split <;> rfl

theorem unsigned_mul (hu : Unsigned u) (hv : Unsigned v) :
    Unsigned (UnpackedFloat.mul format u v) := by
  cases u <;> cases v <;> cases hu <;> cases hv <;>
    first | trivial | exact unsigned_roundWithAccuracy

theorem unsigned_div (hu : Unsigned u) (hv : Unsigned v) :
    Unsigned (UnpackedFloat.div format u v) := by
  cases u <;> cases v <;> cases hu <;> cases hv <;>
    first | trivial | exact unsigned_roundWithAccuracy

theorem unsigned_ofNat (n : Nat) : Unsigned (UnpackedFloat.ofNat format n) := by
  unfold UnpackedFloat.ofNat UnpackedFloat.ofInt UnpackedFloat.normalize
  split
  case h_1 h => exact absurd (Int.compare_eq_lt.mp h) (by omega)
  case h_2   => rfl
  case h_3   => exact unsigned_roundWithAccuracy

theorem unsigned_ofScientific (m : Nat) (e : Int) :
    Unsigned (UnpackedFloat.ofScientific format m e) := by
  unfold UnpackedFloat.ofScientific
  split
  case isTrue => rfl
  case isFalse =>
    split
    case isTrue => rfl
    case isFalse =>
      split
      case isTrue => rfl
      case isFalse =>
        split
        case isTrue  => exact unsigned_mul rfl rfl
        case isFalse => exact unsigned_div rfl rfl

theorem isNegative_mul (hx : Binary64.isNegative x = false) (hy : Binary64.isNegative y = false) :
    Binary64.isNegative (x * y) = false :=
  isNegative_ofModel (unsigned_mul (unsigned_unpacked hx) (unsigned_unpacked hy))

theorem isNegative_div (hx : Binary64.isNegative x = false) (hy : Binary64.isNegative y = false) :
    Binary64.isNegative (x / y) = false :=
  isNegative_ofModel (unsigned_div (unsigned_unpacked hx) (unsigned_unpacked hy))

theorem isNegative_toFloat (n : UInt64) : Binary64.isNegative n.toFloat = false :=
  isNegative_ofModel (unsigned_ofNat n.toNat)

theorem isNegative_powerOfTen :
    ∀ e (h : e < 23), Binary64.isNegative Float.exactlyRepresentablePowersOfTen[e] = false := by
  decide +kernel

theorem isNegative_ofScientific (m : Nat) (s : Bool) (e : Nat) :
    Binary64.isNegative (Float.ofScientific m s e) = false := by
  unfold Float.ofScientific
  split
  case isTrue h =>
    have hp := isNegative_powerOfTen e (by omega)
    split
    case isTrue  => exact isNegative_div (isNegative_toFloat _) hp
    case isFalse => exact isNegative_mul (isNegative_toFloat _) hp
  case isFalse => exact isNegative_ofModel (unsigned_ofScientific ..)

-- Numerals have no sign, and neither have the numbers that they stand for.
theorem isNegative_ofDecimal (d : Decimal) : Binary64.isNegative (Binary64.ofDecimal d) = false := by
  simp only [Binary64.ofDecimal]
  split
  case isTrue  => rfl
  case isFalse =>
    split
    case isTrue  => decide +kernel
    case isFalse => exact isNegative_ofScientific ..

end Double

end InfixAlgebra
