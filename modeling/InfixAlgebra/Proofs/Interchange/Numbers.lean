import InfixAlgebra.Interchange.Data
import InfixAlgebra.Proofs.Double.DataText
import InfixAlgebra.Proofs.Json.Writing

namespace InfixAlgebra

namespace Double

variable {x y : Float}

-- Three numbers are not finite.
theorem nan_or_infinite (h : ¬x.isFinite) : x = 0 / 0 ∨ x = 1 / 0 ∨ x = -(1 / 0) := by
  have hx : ¬(unpacked x).isFinite := h
  cases hu : unpacked x with
  | notANumber => exact .inl (eq_of_unpacked hu)
  | infinity s =>
    cases s with
    | positive => exact .inr (.inl (eq_of_unpacked hu))
    | negative => exact .inr (.inr (eq_of_unpacked hu))
  | zero s         => simp [hu, Float.Model.UnpackedFloat.isFinite] at hx
  | finite s m e h => simp [hu, Float.Model.UnpackedFloat.isFinite] at hx

end Double

namespace Json

variable {x y : Float}

theorem wellSpelled_ofNumber (x : Float) : (ofNumber x).WellSpelled := by
  unfold ofNumber
  split
  case isTrue h => exact .number (Double.isNumber_json h)
  case isFalse  => exact .string _

theorem wellSpelled_ofPlainNumber (x : Float) : (ofPlainNumber x).WellSpelled := by
  unfold ofPlainNumber
  split
  case isTrue h => exact .number (Double.isNumber_json h)
  case isFalse  => exact .null

theorem ofNumber_of_finite (h : x.isFinite) : ofNumber x = number (NumberText.json x).toList :=
  if_pos h

theorem ofNumber_nan : ofNumber (0 / 0 : Float) = string "NaN".toList :=
  rfl

theorem ofNumber_infinity : ofNumber (1 / 0 : Float) = string "Infinity".toList :=
  rfl

theorem ofNumber_neg_infinity : ofNumber (-(1 / 0) : Float) = string "-Infinity".toList :=
  rfl

theorem exists_ofNumber_eq_string (h : ¬x.isFinite) : ∃ s, ofNumber x = string s :=
  ⟨_, if_neg h⟩

theorem ofPlainNumber_of_finite (h : x.isFinite) :
    ofPlainNumber x = number (NumberText.json x).toList :=
  if_pos h

theorem ofPlainNumber_of_not_finite (h : ¬x.isFinite) : ofPlainNumber x = null :=
  if_neg h

theorem number_inj (hx : x.isFinite) (hy : y.isFinite)
    (h : number (NumberText.json x).toList = number (NumberText.json y).toList) : x = y := by
  rw [number.injEq, String.toList_inj] at h
  exact Double.json_inj hx hy h

-- Numbers in values are told apart by their data.
theorem ofNumber_inj (h : ofNumber x = ofNumber y) : x = y := by
  by_cases hx : x.isFinite <;> by_cases hy : y.isFinite
  case pos =>
    rw [ofNumber_of_finite hx, ofNumber_of_finite hy] at h
    exact number_inj hx hy h
  case neg =>
    have ⟨s, hs⟩ := exists_ofNumber_eq_string hy
    rw [ofNumber_of_finite hx, hs] at h
    cases h
  case pos =>
    have ⟨s, hs⟩ := exists_ofNumber_eq_string hx
    rw [ofNumber_of_finite hy, hs] at h
    cases h
  case neg =>
    rcases Double.nan_or_infinite hx with rfl | rfl | rfl <;>
      rcases Double.nan_or_infinite hy with rfl | rfl | rfl <;>
        simp [ofNumber_nan, ofNumber_infinity, ofNumber_neg_infinity] at h ⊢

-- Of the numbers in solutions, only those that are finite are told apart.
theorem ofPlainNumber_eq_iff :
    ofPlainNumber x = ofPlainNumber y ↔ x = y ∨ ¬x.isFinite ∧ ¬y.isFinite := by
  constructor
  case mp =>
    intro h
    by_cases hx : x.isFinite <;> by_cases hy : y.isFinite
    case pos =>
      rw [ofPlainNumber_of_finite hx, ofPlainNumber_of_finite hy] at h
      exact .inl (number_inj hx hy h)
    case neg =>
      rw [ofPlainNumber_of_finite hx, ofPlainNumber_of_not_finite hy] at h
      cases h
    case pos =>
      rw [ofPlainNumber_of_not_finite hx, ofPlainNumber_of_finite hy] at h
      cases h
    case neg => exact .inr ⟨hx, hy⟩
  case mpr =>
    rintro (rfl | ⟨hx, hy⟩)
    case inl => rfl
    case inr => rw [ofPlainNumber_of_not_finite hx, ofPlainNumber_of_not_finite hy]

end Json

end InfixAlgebra
