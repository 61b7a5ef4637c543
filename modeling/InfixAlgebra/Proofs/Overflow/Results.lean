import InfixAlgebra.Proofs.Canonical.Equality
import InfixAlgebra.Proofs.Double.Finite
import InfixAlgebra.Proofs.Ingredients.Derivative
import InfixAlgebra.Proofs.Ingredients.Fraction
import InfixAlgebra.Proofs.Overflow.Watched
import InfixAlgebra.Proofs.Transport.Derivative
import InfixAlgebra.Proofs.Transport.Fraction

namespace InfixAlgebra

instance : Scalar.Finitary Float where
  zero      := rfl
  one       := rfl
  natural h := Double.isFinite_ofNat (h.trans (by decide))
  neg       := Double.isFinite_neg
  integer   := Double.isFinite_of_toInt?

variable {α : Type}

def Config.watched (c : Config α) : Config (Watched α) where
  maxDepth       := c.maxDepth
  maxOperations  := c.maxOperations
  pivotEpsilon   := .fresh c.pivotEpsilon
  snapTolerance  := .fresh c.snapTolerance
  maxExpandPower := c.maxExpandPower

namespace Expr

def watched (t : Expr α) : Expr (Watched α) :=
  t.map .fresh

variable {t r : Expr α}

theorem value_watched (t : Expr α) : t.watched.map Watched.value = t :=
  (map_map _ _ t).trans t.map_id

variable [Scalar α]

theorem MadeOf.watched (ht : t.MadeOf .finite) : t.watched.MadeOf .finiteUnlessOverflowed := by
  unfold Expr.watched
  induction t with
  | number x      => exact .number (.inl ht.of_number)
  | constant c    => exact .constant c
  | var name      => exact .var trivial
  | neg a ih      => exact .neg (ih ht.of_neg)
  | binary op a b iha ihb => exact .binary op (iha ht.of_binary.1) (ihb ht.of_binary.2)
  | call g args ih =>
    rw [map, mapAll_eq]
    refine .call g trivial fun b hb => ?_
    obtain ⟨a, ha, rfl⟩ := List.mem_map.mp hb
    exact ih a ha (ht.of_call.2 a ha)

-- An expression that a computation with marked numbers gives, the marks apart. The numbers without
-- a mark are finite.
def FiniteUnlessOverflowed (x : Except (Error (Watched α)) (Expr (Watched α))) (r : Expr α) :
    Prop :=
  ∃ r', x = .ok r' ∧ r'.map Watched.value = r ∧ r'.MadeOf .finiteUnlessOverflowed

theorem FiniteUnlessOverflowed.of_mirrored {x : Except (Error (Watched α)) (Expr (Watched α))}
    {y : Except (Error α) (Expr α)} {l : Limits} (h : Mirrored l (map Watched.value) x y)
    (hx : ∀ r', x = .ok r' → r'.MadeOf .finiteUnlessOverflowed) (hy : y = .ok r) :
    FiniteUnlessOverflowed x r :=
  have ⟨r', hr, hvalue⟩ := h.exists_of_ok hy
  ⟨r', hr, hvalue, hx r' hr⟩

variable [NumberText α] [Scalar.Finitary α] {config : Config α}

-- Where all numbers of an expression are finite, so are those of what it is rewritten to, except
-- where a sum or a product of finite numbers was too large on the way.
theorem finite_unless_overflowed (ht : t.MadeOf .finite) :
    (∀ name r, t.differentiate config name = .ok r →
      FiniteUnlessOverflowed (t.watched.differentiate config.watched name) r) ∧
    (∀ r, t.canonical config = .ok r →
      FiniteUnlessOverflowed (t.watched.canonical config.watched) r) ∧
    (∀ r, t.rationalize config = .ok r →
      FiniteUnlessOverflowed (t.watched.rationalize config.watched) r) := by
  have hfaithful := Watched.faithful_value (α := α)
  have hclosed := Ingredients.closed_finiteUnlessOverflowed (α := α)
  have hlimits : config.toLimits ≤ config.watched.toLimits := config.toLimits.le_refl
  have hpower : config.watched.maxExpandPower = config.maxExpandPower := rfl
  refine ⟨fun name r h => ?_, fun r h => ?_, fun r h => ?_⟩
  all_goals rw [← t.value_watched] at h
  case refine_1 =>
    have hmirrored := mirrored_differentiate hfaithful hlimits name t.watched
    exact .of_mirrored hmirrored (fun _ => ht.watched.differentiate hclosed) h
  case refine_2 =>
    have hmirrored := mirrored_canonical hfaithful hlimits t.watched
    exact .of_mirrored hmirrored (fun _ => ht.watched.canonical hclosed) h
  case refine_3 =>
    have hmirrored := mirrored_rationalize hfaithful hlimits hpower t.watched
    exact .of_mirrored hmirrored (fun _ => ht.watched.rationalize hclosed) h

-- The coefficients of like terms are small enough, so that no mark is set.
theorem finite_unless_overflowed_of_small_coefficients :
    let config : Config Float := .standard
    let x : Expr Float := .var "x"
    let t := Expr.add (.mul (.number 2) x) (.mul (.number 3) x)
    let r := Expr.mul (.number 5) x
    t.MadeOf .finite ∧ t.differentiate config "x" = .ok (.number 5) ∧
      t.canonical config = .ok r ∧ t.rationalize config = .ok r ∧
      FiniteUnlessOverflowed (t.watched.differentiate config.watched "x") (.number 5) ∧
      FiniteUnlessOverflowed (t.watched.canonical config.watched) r ∧
      FiniteUnlessOverflowed (t.watched.rationalize config.watched) r ∧
      t.watched.canonical config.watched = .ok r.watched := by
  intro config x t r
  have htwo : Float.isFinite 2 := by decide +kernel
  have hthree : Float.isFinite 3 := by decide +kernel
  have hx : x.MadeOf .finite := .var trivial
  have ht : t.MadeOf .finite :=
    .binary .add (.binary .mul (.number htwo) hx) (.binary .mul (.number hthree) hx)
  have hd : t.differentiate config "x" = .ok (.number 5) := by decide +kernel
  have hc : t.canonical config = .ok r := by decide +kernel
  have hr : t.rationalize config = .ok r := by decide +kernel
  exact ⟨ht, hd, hc, hr, (finite_unless_overflowed ht).1 _ _ hd,
    (finite_unless_overflowed ht).2.1 _ hc, (finite_unless_overflowed ht).2.2 _ hr,
    by decide +kernel⟩

-- Coefficients of like terms are added whether or not their sum is finite. Here it is not, which
-- the mark tells.
theorem not_finite_of_large_coefficients :
    let config : Config Float := .standard
    let x : Expr Float := .var "x"
    let t := Expr.add (.mul (.number 1e308) x) (.mul (.number 1e308) x)
    let r := Expr.mul (.number (1 / 0)) x
    t.MadeOf .finite ∧ t.canonical config = .ok r ∧ ¬r.MadeOf .finite ∧
      r.render = "Infinity * x" ∧
      t.watched.canonical config.watched = .ok (.mul (.number ⟨1 / 0, true⟩) (.var "x")) := by
  intro config x t r
  have hlarge : Float.isFinite 1e308 := by decide +kernel
  have hx : x.MadeOf .finite := .var trivial
  have ht : t.MadeOf .finite :=
    .binary .add (.binary .mul (.number hlarge) hx) (.binary .mul (.number hlarge) hx)
  have hr : ¬r.MadeOf .finite := by
    intro hr
    have hfinite : Float.isFinite (1 / 0) := hr.of_binary.1.of_number
    exact absurd hfinite (by decide +kernel)
  exact ⟨ht, by decide +kernel, hr, by decide +kernel, by decide +kernel⟩

end Expr

end InfixAlgebra
