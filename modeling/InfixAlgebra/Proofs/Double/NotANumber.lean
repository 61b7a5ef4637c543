import InfixAlgebra.Proofs.Double.Sign

namespace InfixAlgebra

namespace Double

open Float.Model Float.Model.UnpackedFloat

variable {x y : Float}

theorem isNaN_iff : x.isNaN ↔ unpacked x = .notANumber := by
  show (unpacked x).isNaN ↔ _
  cases unpacked x <;> simp [UnpackedFloat.isNaN]

theorem isNaN_ofModel : (Float.ofModel (.pack .notANumber)).isNaN :=
  isNaN_iff.mpr (unpacked_ofModel (u := .notANumber) trivial)

-- Results of operations on what is not a number are not numbers either.

theorem isNaN_sub_left (hx : x.isNaN) (y : Float) : (x - y).isNaN := by
  show (Float.ofModel (.pack ((unpacked x).sub format (unpacked y)))).isNaN
  rw [isNaN_iff.mp hx]
  exact isNaN_ofModel

theorem isNaN_sub_right (x : Float) (hy : y.isNaN) : (x - y).isNaN := by
  show (Float.ofModel (.pack ((unpacked x).sub format (unpacked y)))).isNaN
  rw [isNaN_iff.mp hy]
  cases unpacked x <;> exact isNaN_ofModel

theorem isNaN_mul_left (hx : x.isNaN) (y : Float) : (x * y).isNaN := by
  show (Float.ofModel (.pack ((unpacked x).mul format (unpacked y)))).isNaN
  rw [isNaN_iff.mp hx]
  exact isNaN_ofModel

theorem isNaN_mul_right (x : Float) (hy : y.isNaN) : (x * y).isNaN := by
  show (Float.ofModel (.pack ((unpacked x).mul format (unpacked y)))).isNaN
  rw [isNaN_iff.mp hy]
  cases unpacked x <;> exact isNaN_ofModel

theorem isNaN_div_left (hx : x.isNaN) (y : Float) : (x / y).isNaN := by
  show (Float.ofModel (.pack ((unpacked x).div format (unpacked y)))).isNaN
  rw [isNaN_iff.mp hx]
  exact isNaN_ofModel

theorem isNaN_abs (hx : x.isNaN) : x.abs.isNaN := by
  show (Float.ofModel (.pack (unpacked x).abs)).isNaN
  rw [isNaN_iff.mp hx]
  exact isNaN_ofModel

-- They are not comparable with anything.
theorem not_le_of_isNaN (x : Float) (hy : y.isNaN) : ¬Scalar.le x y := by
  rw [le_eq, isNaN_iff.mp hy]
  cases unpacked x <;> nofun

end Double

end InfixAlgebra
