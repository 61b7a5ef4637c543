import InfixAlgebra.Decimal.Layout

namespace InfixAlgebra

-- The magnitude of a finite number of double precision, which is `mantissa * 2 ^ exponent`.
structure Binary64 where
  mantissa : Nat
  exponent : Int
  deriving DecidableEq, Repr

namespace Binary64

def isNegative (x : Float) : Bool :=
  x.toBits.toNat / Nat.pow 2 63 == 1

def ofFloat (x : Float) : Binary64 :=
  let bits     := x.toBits.toNat
  let fraction := bits % Nat.pow 2 52
  match bits / Nat.pow 2 52 % Nat.pow 2 11 with
  | 0     => ⟨fraction, -1074⟩
  | e + 1 => ⟨Nat.pow 2 52 + fraction, e - 1074⟩

-- Halfway to the next number below is nearer where the exponent changes.
def neighbourhood (b : Binary64) : Neighbourhood :=
  let scale := Nat.pow 2 (b.exponent - 2).toNat
  let below := if b.mantissa = Nat.pow 2 52 ∧ b.exponent ≠ -1074 then 1 else 2
  { value  := 4 * b.mantissa * scale
    low    := (4 * b.mantissa - below) * scale
    high   := (4 * b.mantissa + 2) * scale
    unit   := Nat.pow 2 (2 - b.exponent).toNat
    closed := b.mantissa % 2 == 0 }

def toNat? (b : Binary64) : Option Nat :=
  let unit := Nat.pow 2 (-b.exponent).toNat
  if b.mantissa % unit = 0 then some (b.mantissa / unit * Nat.pow 2 b.exponent.toNat) else none

-- The nearest integer, where a half goes up.
def round (b : Binary64) : Nat :=
  let unit := Nat.pow 2 (-b.exponent).toNat
  (2 * b.mantissa + unit) / (2 * unit) * Nat.pow 2 b.exponent.toNat

def writable (x : Float) : Writable :=
  if x.isNaN then
    .notANumber
  else if x.isInf then
    .infinite (isNegative x)
  else
    let b := ofFloat x
    if b.mantissa = 0 then .zero (isNegative x) else .finite (isNegative x) b.neighbourhood

def infinity : Float := 1 / 0

-- Far outside the range of exponents the digits do not matter any more.
def ofDecimal (d : Decimal) : Float :=
  let leading := d.exponent + Neighbourhood.digitCount d.digits
  if d.digits = 0 || leading < -400 then
    0
  else if leading > 400 then
    infinity
  else
    Float.ofScientific d.digits (d.exponent < 0) d.exponent.natAbs

-- The number that a text stands for: a numeral, infinity or no number, perhaps with a sign. The
-- case of letters does not matter.
def ofText? (text : String) : Option Float :=
  match text.toList with
  | '-' :: cs => (unsigned? cs).map (-·)
  | '+' :: cs => unsigned? cs
  | cs        => unsigned? cs
where
  unsigned? (cs : List Char) : Option Float :=
    match String.ofList (cs.map Char.toLower) with
    | "inf" | "infinity" => some infinity
    | "nan"              => some (0 / 0)
    | _                  => (Numeral.ofList? cs).map fun n => ofDecimal n.decimal

-- Numerals in data files are read in a simpler way: of the digits, those that fit into 64 bits are
-- kept, and the number that they spell is multiplied or divided by one power of ten. This can be
-- off by a unit in the last place where there are many digits or the exponent is large.

-- Appends digits to a number for as long as the result fits into 64 bits. Gives the number of
-- digits that were taken as well.
def takeDigits (n : Nat) : List Char → Nat × Nat
  | []      => (n, 0)
  | c :: cs =>
    let next := 10 * n + Decimal.digitValue c
    if next < UInt64.size then
      let (result, taken) := takeDigits next cs
      (result, taken + 1)
    else
      (n, 0)

-- Dividing twice by the largest power of ten leaves nothing of a number below `2 ^ 64`.
def divideByPower (x : Float) (exponent : Nat) : (rounds : Nat) → Float
  | 0     => 0
  | n + 1 =>
    if exponent ≤ 308 then
      x / Float.ofScientific 1 false exponent
    else
      divideByPower (x / 1e308) (exponent - 308) n

def scaleByPower? (x : Float) (exponent : Int) : Option Float :=
  if exponent < 0 then
    some (divideByPower x exponent.natAbs 3)
  else if x == 0 then
    some 0
  else if exponent ≤ 308 then
    let y := x * Float.ofScientific 1 false exponent.natAbs
    if y.isInf then none else some y
  else
    none

def ofJson? (negative : Bool) (n : Numeral) : Option Float := do
  let (whole, taken) := takeDigits 0 n.whole
  let fraction := n.fraction.getD []
  let (digits, takenBehind) := takeDigits whole fraction
  let exponent := n.power.elim 0 Numeral.Power.value + (n.whole.length - taken : Nat) - takenBehind
  let x ← scaleByPower? (Float.ofNat digits) exponent
  return if negative then -x else x

end Binary64

end InfixAlgebra
