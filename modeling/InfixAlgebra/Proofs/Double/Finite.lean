import InfixAlgebra.Proofs.Double.Regular

namespace InfixAlgebra

namespace Double

open Float.Model Float.Model.UnpackedFloat

variable {x : Float} {n : Nat}

theorem isFinite_neg (h : x.isFinite) : (-x).isFinite := by
  show (unpacked (-x)).isFinite
  rw [unpacked_neg]
  rcases zero_or_finite h with ⟨s, hx⟩ | ⟨s, m, e, hm, hx⟩ <;> rw [hx] <;> rfl

theorem isFinite_of_toInt? (h : (toInt? x).isSome) : x.isFinite := by
  unfold toInt? at h
  split at h
  case isTrue hx => exact hx
  case isFalse   => cases h

theorem mul_comm (x y : Float) : x * y = y * x := by
  have hmul (u v : UnpackedFloat) : u.mul format v = v.mul format u := by
    have hsign (s t : Sign) : s * t = t * s := by cases s <;> cases t <;> rfl
    cases u <;> cases v <;>
      simp only [UnpackedFloat.mul, hsign, Nat.mul_comm, Int.add_comm]
  exact congrArg (fun u => Float.ofModel (.pack u)) (hmul (unpacked x) (unpacked y))

-- Natural numbers of no more than 53 bits are represented, shifted so that the leading bit is the
-- highest one.

theorem canonical_shifted (hn : 0 < n) (hlt : n < 2 ^ 53) (s : Sign) :
    Canonical (.finite s (n * 2 ^ (52 - n.log2)) (-(52 - n.log2 : Nat))
      (Nat.mul_pos hn (Nat.two_pow_pos _))) := by
  have hlog : n.log2 < 53 := (Nat.log2_lt (Nat.ne_of_gt hn)).mpr hlt
  have hlow : 2 ^ n.log2 * 2 ^ (52 - n.log2) ≤ n * 2 ^ (52 - n.log2) :=
    Nat.mul_le_mul_right _ (Nat.log2_self_le (Nat.ne_of_gt hn))
  have hhigh : n * 2 ^ (52 - n.log2) < 2 ^ (n.log2 + 1) * 2 ^ (52 - n.log2) :=
    Nat.mul_lt_mul_of_pos_right Nat.lt_log2_self (Nat.two_pow_pos _)
  rw [← Nat.pow_add] at hlow hhigh
  rw [show n.log2 + (52 - n.log2) = 52 by omega] at hlow
  rw [show n.log2 + 1 + (52 - n.log2) = 53 by omega] at hhigh
  exact ⟨hhigh, by omega, by omega, .inl hlow⟩

theorem ofNat_eq (hn : 0 < n) (hlt : n < 2 ^ 53) :
    UnpackedFloat.ofNat format n =
      .finite .positive (n * 2 ^ (52 - n.log2)) (-(52 - n.log2 : Nat))
        (Nat.mul_pos hn (Nat.two_pow_pos _)) := by
  have hlog : n.log2 < 53 := (Nat.log2_lt (Nat.ne_of_gt hn)).mpr hlt
  have htarget : format.targetExponent (totalExponent n 0) = -(52 - n.log2 : Nat) := by
    show max ((n.log2 : Int) + 1 + 0 - 53) (-1074) = _
    omega
  have hshift : (0 - -((52 - n.log2 : Nat) : Int)).toNat = 52 - n.log2 := by omega
  have hcompare : compare (n : Int) 0 = .gt := Int.compare_eq_gt.mpr (by omega)
  have hround := roundWithAccuracy_exact (canonical_shifted hn hlt .positive) 0
  simp only [UnpackedFloat.ofNat, UnpackedFloat.ofInt, UnpackedFloat.normalize, hcompare,
    UnpackedFloat.round, Int.toNat_natCast, htarget, decreaseExponent, hshift, Nat.shiftLeft_eq]
  rw [Nat.pow_zero, Nat.mul_one, Int.natCast_zero, Int.sub_zero] at hround
  rw [Int.zero_sub]
  exact hround

theorem ofNat_eq_pack (hlt : n < 2 ^ 53) :
    Float.ofNat n = .ofModel (.pack (UnpackedFloat.ofNat format n)) := by
  have hofNat : n.toUInt64.toNat = n :=
    UInt64.toNat_ofNat_of_lt' (hlt.trans (by decide))
  have hone : Float.exactlyRepresentablePowersOfTen[0] = 1 := eq_of_unpacked rfl
  have hnat : Float.ofNat n = n.toUInt64.toFloat * 1 := by
    show Float.ofScientific n false 0 = _
    rw [Float.ofScientific, dif_pos ⟨hlt, by decide⟩]
    exact congrArg (n.toUInt64.toFloat * ·) hone
  rw [hnat, mul_comm, one_mul_eq]
  show Float.ofModel (.pack (UnpackedFloat.ofNat format n.toUInt64.toNat)) = _
  rw [hofNat]

theorem ofNat_zero : Float.ofNat 0 = 0 :=
  (ofNat_eq_pack (by decide)).trans (eq_of_unpacked rfl)

theorem unpacked_ofNat (hn : 0 < n) (hlt : n < 2 ^ 53) :
    unpacked (Float.ofNat n) = .finite .positive (n * 2 ^ (52 - n.log2)) (-(52 - n.log2 : Nat))
      (Nat.mul_pos hn (Nat.two_pow_pos _)) := by
  rw [ofNat_eq_pack hlt, ofNat_eq hn hlt, unpacked_ofModel (canonical_shifted hn hlt _)]

theorem isFinite_ofNat (hlt : n < 2 ^ 53) : (Float.ofNat n).isFinite := by
  show (unpacked (Float.ofNat n)).isFinite
  rcases Nat.eq_zero_or_pos n with rfl | hn
  case inl => rw [ofNat_zero]; rfl
  case inr => rw [unpacked_ofNat hn hlt]; rfl

end Double

end InfixAlgebra
