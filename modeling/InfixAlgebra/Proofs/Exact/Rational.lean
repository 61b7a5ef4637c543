import InfixAlgebra.Proofs.Exact.Basic

namespace InfixAlgebra

namespace Interpretation

-- The rational numbers, with powers by integers. The constants are close to what they stand for,
-- and the functions are defined at the one place where they have a simple value.
def rational : Interpretation ℚ where
  constant
    | .pi => 355 / 113
    | .e  => 193 / 71
  elementary
    | .cos, x            => if x = 0 then some 1 else none
    | .sqrt, x           => if x = 0 ∨ x = 1 then some x else none
    | .log, x            => if x = 1 then some 0 else none
    | .sin, x | .tan, x  => if x = 0 then some 0 else none
  pow u v  := if u = 1 ∨ v.den = 1 ∧ (u = 0 → 0 ≤ v.num) then some (u ^ v.num) else none
  toInt? x := if x.den = 1 then some x.num else none
  round x  := if x < 0 then -(1 / 2 - x).floor else (x + 1 / 2).floor

theorem pow_rational_iff {u v x : ℚ} :
    rational.pow u v = some x ↔
      (u = 1 ∨ v.den = 1 ∧ (u = 0 → 0 ≤ v.num)) ∧ u ^ v.num = x :=
  Option.ite_none_right_eq_some.trans (and_congr_right fun _ => Option.some_inj)

theorem lawful_rational : rational.Lawful where
  pow_zero u := pow_rational_iff.mpr ⟨.inr ⟨rfl, fun _ => le_rfl⟩, zpow_zero u⟩
  pow_one u  := pow_rational_iff.mpr ⟨.inr ⟨rfl, fun _ => Int.one_nonneg⟩, zpow_one u⟩
  one_pow v  := pow_rational_iff.mpr ⟨.inl rfl, one_zpow v.num⟩
  pow_add {u v w x y} hx hy := by
    have ⟨hv, hx⟩ := pow_rational_iff.mp hx
    have ⟨hw, hy⟩ := pow_rational_iff.mp hy
    rw [← hx, ← hy, pow_rational_iff]
    by_cases hu : u = 1
    case pos => simp [hu]
    case neg =>
      have ⟨hvd, hv₀⟩ := hv.resolve_left hu
      have ⟨hwd, hw₀⟩ := hw.resolve_left hu
      have hsum : v + w = (v.num + w.num : ℤ) := by
        rw [Int.cast_add, (Rat.den_eq_one_iff v).mp hvd, (Rat.den_eq_one_iff w).mp hwd]
      rw [hsum, Rat.den_intCast, Rat.num_intCast]
      refine ⟨.inr ⟨rfl, fun hu₀ => Int.add_nonneg (hv₀ hu₀) (hw₀ hu₀)⟩, ?_⟩
      by_cases hu₀ : u = 0
      case neg => exact zpow_add₀ hu₀ v.num w.num
      case pos =>
        have ⟨m, hm⟩ := Int.eq_ofNat_of_zero_le (hv₀ hu₀)
        have ⟨n, hn⟩ := Int.eq_ofNat_of_zero_le (hw₀ hu₀)
        rw [hm, hn, ← Int.natCast_add, zpow_natCast, zpow_natCast, zpow_natCast, pow_add]

end Interpretation

instance : NumberText (Exact Interpretation.rational) where
  ofDecimal d := some (d.digits * 10 ^ d.exponent)
  ofJson? _ _ := none
  ofText? _   := none
  display     := fun x => x.elim "" toString
  plain       := fun x => x.elim "" toString
  scientific  := fun x => x.elim "" toString
  json        := fun x => x.elim "" toString

end InfixAlgebra
