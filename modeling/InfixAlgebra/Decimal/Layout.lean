import InfixAlgebra.Decimal.Shortest

namespace InfixAlgebra

inductive Writable
  | notANumber
  | infinite (negative : Bool)
  | zero (negative : Bool)
  | finite (negative : Bool) (magnitude : Neighbourhood)
  deriving DecidableEq, Repr

structure Layout where
  -- Numbers are written without a power of ten if their first digit stands at or above this one.
  lowest : Option Int
  -- Numbers are written without a power of ten if their first digit stands below this one.
  highest : Option Int
  -- What whole numbers end in when they are written without a power of ten.
  wholeEnd : String
  -- What stands between the `e` and a power of ten that is not negative.
  positiveSign : String
  signedZero : Bool
  notANumber : String
  infinity : String
  tie : Tie
  deriving DecidableEq, Repr

namespace Layout

-- Numbers in expressions and in values. The shape is the one that the expression language reads,
-- as far as it has numerals at all.
def display : Layout where
  lowest       := some (-7)
  highest      := some 21
  wholeEnd     := ""
  positiveSign := "+"
  signedZero   := false
  notANumber   := "NaN"
  infinity     := "Infinity"
  tie          := .up

def plain : Layout where
  lowest       := none
  highest      := none
  wholeEnd     := ""
  positiveSign := ""
  signedZero   := true
  notANumber   := "NaN"
  infinity     := "inf"
  tie          := .up

def scientific : Layout where
  lowest       := some 0
  highest      := some 0
  wholeEnd     := ""
  positiveSign := ""
  signedZero   := true
  notANumber   := "NaN"
  infinity     := "inf"
  tie          := .up

-- Numerals in data files, where whole numbers are told from integers by their `.0`.
def json : Layout where
  lowest       := some (-5)
  highest      := some 16
  wholeEnd     := ".0"
  positiveSign := "+"
  signedZero   := true
  notANumber   := "NaN"
  infinity     := "Infinity"
  tie          := .even

def isPositional (l : Layout) (leading : Int) : Bool :=
  l.lowest.all (· ≤ leading) && l.highest.all (leading < ·)

def zeros (n : Nat) : List Char :=
  List.replicate n '0'

-- Digits of which the first one stands at `10 ^ leading`.
def positional (l : Layout) (digits : List Char) (leading : Int) : List Char :=
  if leading < 0 then
    '0' :: '.' :: zeros (-leading - 1).toNat ++ digits
  else
    let whole := leading.toNat + 1
    if digits.length ≤ whole then
      digits ++ zeros (whole - digits.length) ++ l.wholeEnd.toList
    else
      digits.take whole ++ '.' :: digits.drop whole

def exponential (l : Layout) (digits : List Char) (leading : Int) : List Char :=
  let mantissa :=
    match digits with
    | d :: r :: rest => d :: '.' :: r :: rest
    | _              => digits
  let sign := if leading < 0 then "-" else l.positiveSign
  mantissa ++ 'e' :: sign.toList ++ Nat.toDigits 10 leading.natAbs

def unsigned (l : Layout) (digits : List Char) (leading : Int) : List Char :=
  if l.isPositional leading then l.positional digits leading else l.exponential digits leading

def significant (d : Decimal) : List Char × Int :=
  let digits := Nat.toDigits 10 d.digits
  ((digits.reverse.dropWhile (· == '0')).reverse, d.exponent + digits.length - 1)

def signed (negative : Bool) (text : String) : String :=
  if negative then "-" ++ text else text

def write (l : Layout) : Writable → String
  | .notANumber        => l.notANumber
  | .infinite negative => signed negative l.infinity
  | .zero negative     =>
    signed (negative && l.signedZero) (String.ofList (l.unsigned ['0'] 0))
  | .finite negative v =>
    let (digits, leading) := significant (v.shortest l.tie)
    signed negative (String.ofList (l.unsigned digits leading))

end Layout

end InfixAlgebra
