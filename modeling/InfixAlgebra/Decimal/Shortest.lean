import InfixAlgebra.Decimal.Numeral

namespace InfixAlgebra

inductive Tie
  | up
  | even
  deriving DecidableEq, Repr

-- The positive number `value / unit` among the numbers from `low / unit` to `high / unit`, all of
-- which are read back as it. The two ends belong to them if `closed`.
structure Neighbourhood where
  value : Nat
  low : Nat
  high : Nat
  unit : Nat
  closed : Bool
  deriving DecidableEq, Repr

namespace Neighbourhood

def digitCount (n : Nat) : Nat :=
  (Nat.toDigits 10 n).length

-- The `p` for which `10 ^ (p - 1) ≤ value / unit < 10 ^ p`.
def place (v : Neighbourhood) : Int :=
  if v.unit ≤ v.value then
    digitCount (v.value / v.unit)
  else
    1 - digitCount ((v.unit - 1) / v.value)

-- The decimal nearest to the value among those that read back as it and have their last digit at
-- `10 ^ exponent`.
def nearest? (v : Neighbourhood) (tie : Tie) (exponent : Int) : Option Decimal :=
  -- Up to a common factor these decimals are the multiples of `step`. Only the two on either side
  -- of the value can be the nearest one.
  let step   := v.unit * Nat.pow 10 exponent.toNat
  let scale  := Nat.pow 10 (-exponent).toNat
  let value  := v.value * scale
  let digits := value / step
  match fits (v.low * scale) (digits * step), fits ((digits + 1) * step) (v.high * scale) with
  | false, false => none
  | true, false  => some ⟨digits, exponent⟩
  | false, true  => some ⟨digits + 1, exponent⟩
  | true, true   => some ⟨nearer (value - digits * step) step digits, exponent⟩
where
  fits (a b : Nat) : Bool :=
    if v.closed then a ≤ b else a < b
  nearer (rest step digits : Nat) : Nat :=
    if 2 * rest < step then
      digits
    else if step < 2 * rest then
      digits + 1
    else
      match tie with
      | .up   => digits + 1
      | .even => digits + digits % 2

-- The decimal with the fewest digits that reads back as the value, and of those the nearest.
-- Seventeen digits suffice for every number of double precision.
def shortest (v : Neighbourhood) (tie : Tie) : Decimal :=
  let found := (List.range 17).findSome? fun (n : Nat) => v.nearest? tie (v.place - (n + 1))
  found.getD ⟨v.value / v.unit, 0⟩

end Neighbourhood

end InfixAlgebra
