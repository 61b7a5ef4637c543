import InfixAlgebra.Scalar
import InfixAlgebra.Decimal.Binary64

namespace InfixAlgebra

-- Arithmetic in double precision.

namespace Double

def constant : Constant → Float
  | .pi => 3.14159265358979323846
  | .e  => 2.71828182845904523536

def elementary : Elementary → Float → Float
  | .sin  => Float.sin
  | .cos  => Float.cos
  | .tan  => Float.tan
  | .sqrt => Float.sqrt
  | .log  => Float.log

def toInt? (x : Float) : Option Int :=
  if x.isFinite then
    (Binary64.ofFloat x).toNat?.map fun n => if Binary64.isNegative x then -n else n
  else
    none

def round (x : Float) : Float :=
  if x.isFinite then
    let n := Float.ofNat (Binary64.ofFloat x).round
    if Binary64.isNegative x then -n else n
  else
    x

end Double

instance instZeroFloat : Zero Float := ⟨0⟩
instance instOneFloat : One Float := ⟨1⟩

instance : Scalar Float where
  ofNat      := Float.ofNat
  pow        := Float.pow
  constant   := Double.constant
  elementary := Double.elementary
  abs        := Float.abs
  lt x y     := x < y
  le x y     := x ≤ y
  isFinite   := Float.isFinite
  toInt?     := Double.toInt?
  round      := Double.round

instance : NumberText Float where
  ofDecimal  := Binary64.ofDecimal
  ofJson?    := Binary64.ofJson?
  ofText?    := Binary64.ofText?
  display    := Layout.display.write ∘ Binary64.writable
  plain      := Layout.plain.write ∘ Binary64.writable
  scientific := Layout.scientific.write ∘ Binary64.writable
  json       := Layout.json.write ∘ Binary64.writable

end InfixAlgebra
