import InfixAlgebra.Proofs.Double.Bits

namespace InfixAlgebra

namespace Double

open Float.Model Float.Model.UnpackedFloat

variable {x y : Float} {s : Sign} {m : Nat} {e : Int} {h : 0 < m}

def unpacked (x : Float) : UnpackedFloat :=
  x.toModel.unpack

theorem canonical_unpacked (x : Float) : Canonical (unpacked x) :=
  canonical_unpack _

theorem pack_unpacked (x : Float) : Float.ofModel (.pack (unpacked x)) = x := by
  obtain ⟨bits, hv⟩ := x
  have hp := pack_unpack hv
  simp only [unpacked, Float.Model.pack, Float.Model.unpack, hp]

theorem eq_of_unpacked (h : unpacked x = unpacked y) : x = y := by
  rw [← pack_unpacked x, h, pack_unpacked]

theorem unpacked_ofModel {u : UnpackedFloat} (hc : Canonical u) :
    unpacked (.ofModel (.pack u)) = u :=
  unpack_pack hc

theorem unpacked_zero : unpacked 0 = .zero .positive :=
  rfl

theorem unpacked_neg (x : Float) : unpacked (-x) = (unpacked x).neg := by
  have hc := canonical_unpacked x
  refine unpacked_ofModel ?_
  show Canonical (unpacked x).neg
  cases hx : unpacked x <;> rw [hx] at hc <;> exact hc

theorem neg_neg (x : Float) : - -x = x := by
  apply eq_of_unpacked
  rw [unpacked_neg, unpacked_neg]
  cases unpacked x with
  | notANumber       => rfl
  | infinity s       => cases s <;> rfl
  | zero s           => cases s <;> rfl
  | finite s m e h   => cases s <;> rfl

theorem isNegative_eq (hs : Sign.ofBitVec (@unpackSign format x.toBits.toBitVec) = s) :
    Binary64.isNegative x = (signBit s == 1) := by
  rw [← hs, signBit_unpackSign]
  rfl

theorem ofFloat_eq {k : Nat} (hk : x.toBits.toNat / 2 ^ 52 % 2 ^ 11 = k) :
    Binary64.ofFloat x =
      if k = 0 then ⟨x.toBits.toNat % 2 ^ 52, -1074⟩
      else ⟨2 ^ 52 + x.toBits.toNat % 2 ^ 52, k - 1075⟩ := by
  simp only [Binary64.ofFloat, Nat.pow_eq, hk]
  cases k with
  | zero   => rfl
  | succ k =>
    rw [if_neg (by omega)]
    simp only [Binary64.mk.injEq, true_and]
    omega

theorem unpacked_eq (x : Float) : unpacked x = UnpackedFloat.unpack format x.toBits.toBitVec :=
  rfl

theorem magnitude_of_zero (hx : unpacked x = .zero s) :
    Binary64.isNegative x = (signBit s == 1) ∧ (Binary64.ofFloat x).mantissa = 0 := by
  rw [unpacked_eq, unpack_eq] at hx
  split at hx
  case isTrue => split at hx <;> cases hx
  case isFalse =>
    split at hx
    case isTrue he =>
      split at hx
      case isTrue hm =>
        cases hx
        refine ⟨isNegative_eq rfl, ?_⟩
        rw [ofFloat_eq he]
        exact hm
      case isFalse => cases hx
    case isFalse => cases hx

theorem magnitude_of_finite (hx : unpacked x = .finite s m e h) :
    Binary64.isNegative x = (signBit s == 1) ∧ Binary64.ofFloat x = ⟨m, e⟩ := by
  rw [unpacked_eq, unpack_eq] at hx
  split at hx
  case isTrue => split at hx <;> cases hx
  case isFalse =>
    split at hx
    case isTrue he =>
      split at hx
      case isTrue => cases hx
      case isFalse =>
        cases hx
        exact ⟨isNegative_eq rfl, ofFloat_eq he⟩
    case isFalse he =>
      cases hx
      refine ⟨isNegative_eq rfl, ?_⟩
      rw [ofFloat_eq rfl]
      exact if_neg he

-- Finite numbers are told apart by whether they have a leading bit.
theorem zero_or_finite (hx : x.isFinite) :
    (∃ s, unpacked x = .zero s) ∨ ∃ s m e h, unpacked x = .finite s m e h := by
  have hx : (unpacked x).isFinite := hx
  cases hu : unpacked x with
  | notANumber     => simp [hu, UnpackedFloat.isFinite] at hx
  | infinity s     => simp [hu, UnpackedFloat.isFinite] at hx
  | zero s         => exact .inl ⟨s, rfl⟩
  | finite s m e h => exact .inr ⟨s, m, e, h, rfl⟩

theorem lt_eq (x y : Float) : Scalar.lt x y = (unpacked x).lt (unpacked y) := by
  show decide (decide ((unpacked x).lt (unpacked y) = true) = true) = _
  simp only [Bool.decide_eq_true]

theorem le_eq (x y : Float) : Scalar.le x y = (unpacked x).le (unpacked y) := by
  show decide (decide ((unpacked x).le (unpacked y) = true) = true) = _
  simp only [Bool.decide_eq_true]

theorem beq_eq (x y : Float) : (x == y) = (unpacked x).beq (unpacked y) :=
  rfl

theorem lt_zero_of_zero (hx : unpacked x = .zero s) : Scalar.lt x 0 = false := by
  rw [lt_eq, hx]
  rfl

theorem lt_zero_of_finite (hx : unpacked x = .finite s m e h) :
    Scalar.lt x 0 = (signBit s == 1) := by
  rw [lt_eq, hx]
  cases s <;> rfl

theorem writable_of_zero (hx : unpacked x = .zero s) :
    Binary64.writable x = .zero (signBit s == 1) := by
  have ⟨hs, hm⟩ := magnitude_of_zero hx
  have hnan : x.isNaN = false := congrArg UnpackedFloat.isNaN hx
  have hinf : x.isInf = false := congrArg UnpackedFloat.isInf hx
  simp only [Binary64.writable, hnan, hinf, hm, hs, if_true]
  rfl

theorem writable_of_finite (hx : unpacked x = .finite s m e h) :
    Binary64.writable x = .finite (signBit s == 1) (Binary64.neighbourhood ⟨m, e⟩) := by
  have ⟨hs, hm⟩ := magnitude_of_finite hx
  have hnan : x.isNaN = false := congrArg UnpackedFloat.isNaN hx
  have hinf : x.isInf = false := congrArg UnpackedFloat.isInf hx
  have hne : m ≠ 0 := Nat.ne_of_gt h
  simp only [Binary64.writable, hnan, hinf, hm, hs, hne, if_false]
  rfl

end Double

end InfixAlgebra
