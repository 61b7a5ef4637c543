import InfixAlgebra.Proofs.Ingredients.Basic
import InfixAlgebra.Proofs.Transport.Basic

namespace InfixAlgebra

variable {α β : Type}

-- A number with a mark. It is set where a sum, a difference or a product of finite numbers is not
-- finite, and stays set on whatever is computed from there on.
structure Watched (α : Type) where
  value : α
  overflowed : Bool
  deriving DecidableEq, Repr

namespace Watched

def fresh (x : α) : Watched α :=
  ⟨x, false⟩

def pass (g : α → α → α) (x y : Watched α) : Watched α :=
  ⟨g x.value y.value, x.overflowed || y.overflowed⟩

def watch [Scalar α] (g : α → α → α) (x y : Watched α) : Watched α :=
  let z := g x.value y.value
  let overflows := Scalar.isFinite x.value && Scalar.isFinite y.value && !Scalar.isFinite z
  ⟨z, x.overflowed || y.overflowed || overflows⟩

instance [Scalar α] : Scalar (Watched α) where
  zero           := fresh 0
  one            := fresh 1
  neg x          := ⟨-x.value, x.overflowed⟩
  add            := watch (· + ·)
  sub            := watch (· - ·)
  mul            := watch (· * ·)
  div            := pass (· / ·)
  beq x y        := x.value == y.value
  ofNat n        := fresh (Scalar.ofNat n)
  pow            := pass Scalar.pow
  constant c     := fresh (Scalar.constant c)
  elementary f x := ⟨Scalar.elementary f x.value, x.overflowed⟩
  abs x          := ⟨Scalar.abs x.value, x.overflowed⟩
  lt x y         := Scalar.lt x.value y.value
  le x y         := Scalar.le x.value y.value
  isFinite x     := Scalar.isFinite x.value
  toInt? x       := Scalar.toInt? x.value
  round x        := ⟨Scalar.round x.value, x.overflowed⟩

instance [NumberText α] : NumberText (Watched α) where
  ofDecimal d     := fresh (NumberText.ofDecimal d)
  ofJson? s n     := (NumberText.ofJson? s n).map fresh
  ofText? s       := (NumberText.ofText? s).map fresh
  display x       := NumberText.display x.value
  plain x         := NumberText.plain x.value
  scientific x    := NumberText.scientific x.value
  json x          := NumberText.json x.value

-- Nothing looks at the mark.
theorem faithful_value [Scalar α] [NumberText α] :
    Scalar.Faithful (value : Watched α → α) where
  zero           := rfl
  one            := rfl
  neg _          := rfl
  add _ _        := rfl
  sub _ _        := rfl
  mul _ _        := rfl
  div _ _        := rfl
  pow _ _        := rfl
  elementary _ _ := rfl
  ofNat _        := rfl
  beq _ _        := rfl
  lt _ _         := rfl
  isFinite _     := rfl
  toInt? _       := rfl
  display _      := rfl

end Watched

-- The laws of numbers by which everything but sums and products is finite where it is used.
class Scalar.Finitary (α : Type) [Scalar α] : Prop where
  zero    : Scalar.isFinite (0 : α)
  one     : Scalar.isFinite (1 : α)
  natural : ∀ {k : Nat}, k < 2 ^ 31 → Scalar.isFinite (Scalar.ofNat k : α)
  neg     : ∀ {x : α}, Scalar.isFinite x → Scalar.isFinite (-x)
  integer : ∀ {x : α}, (Scalar.toInt? x).isSome → Scalar.isFinite x

namespace Ingredients

variable [Scalar α]

def finite : Ingredients α where
  number x := Scalar.isFinite x
  name _   := True
  arity _  := True

def finiteUnlessOverflowed : Ingredients (Watched α) where
  number x := Scalar.isFinite x.value ∨ x.overflowed
  name _   := True
  arity _  := True

theorem number_watch (g : α → α → α) {x y : Watched α} (hx : finiteUnlessOverflowed.number x)
    (hy : finiteUnlessOverflowed.number y) :
    finiteUnlessOverflowed.number (Watched.watch g x y) := by
  rcases hx with hx | hx
  case inr => exact .inr (by simp [Watched.watch, hx])
  case inl =>
    rcases hy with hy | hy
    case inr => exact .inr (by simp [Watched.watch, hy])
    case inl =>
      cases hz : Scalar.isFinite (g x.value y.value) with
      | true  => exact .inl hz
      | false => exact .inr (by simp [Watched.watch, hx, hy, hz])

theorem closed_finiteUnlessOverflowed [Scalar.Finitary α] :
    (finiteUnlessOverflowed : Ingredients (Watched α)).Closed where
  zero       := .inl Scalar.Finitary.zero
  one        := .inl Scalar.Finitary.one
  natural h  := .inl (Scalar.Finitary.natural h)
  neg h      := h.imp_left Scalar.Finitary.neg
  add        := number_watch (· + ·)
  mul        := number_watch (· * ·)
  finite h   := .inl h
  integer h  := .inl (Scalar.Finitary.integer h)
  single     := trivial

end Ingredients

end InfixAlgebra
