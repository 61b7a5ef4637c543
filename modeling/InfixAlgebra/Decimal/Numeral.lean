namespace InfixAlgebra

-- The number `digits * 10 ^ exponent`.
structure Decimal where
  digits : Nat
  exponent : Int
  deriving DecidableEq, Repr

namespace Decimal

def digitValue (c : Char) : Nat :=
  c.toNat - '0'.toNat

def natOfDigits (cs : List Char) : Nat :=
  cs.foldl (fun n c => 10 * n + digitValue c) 0

end Decimal

open Decimal

structure Numeral.Power where
  letter : Char
  sign : Option Char
  digits : List Char
  deriving DecidableEq, Repr

structure Numeral where
  whole : List Char
  fraction : Option (List Char)
  power : Option Numeral.Power
  deriving DecidableEq, Repr

namespace Numeral

def Power.toList (p : Power) : List Char :=
  p.letter :: p.sign.toList ++ p.digits

def Power.length (p : Power) : Nat :=
  p.toList.length

def Power.value (p : Power) : Int :=
  if p.sign = some '-' then -(natOfDigits p.digits : Int) else natOfDigits p.digits

def toList (n : Numeral) : List Char :=
  n.whole ++ (n.fraction.elim [] ('.' :: ·)) ++ (n.power.elim [] Power.toList)

def length (n : Numeral) : Nat :=
  n.whole.length + n.fraction.elim 0 (·.length + 1) + n.power.elim 0 Power.length

theorem length_toList (n : Numeral) : n.toList.length = n.length := by
  rw [toList, length, List.length_append, List.length_append]
  cases n.fraction <;> cases n.power <;> rfl

def decimal (n : Numeral) : Decimal where
  digits   := natOfDigits (n.whole ++ n.fraction.getD [])
  exponent := n.power.elim 0 Power.value - (n.fraction.getD []).length

-- A power of ten needs a digit. Without one the letter belongs to whatever comes next.
def scanPower : List Char → Option Power
  | 'e' :: cs => signed 'e' cs
  | 'E' :: cs => signed 'E' cs
  | _ => none
where
  signed (letter : Char) : List Char → Option Power
    | '+' :: cs => ending letter (some '+') cs
    | '-' :: cs => ending letter (some '-') cs
    | cs        => ending letter none cs
  ending (letter : Char) (sign : Option Char) (cs : List Char) : Option Power :=
    match cs.takeWhile Char.isDigit with
    | [] => none
    | ds => some ⟨letter, sign, ds⟩

-- The longest numeral at the start of a text. It has a digit before its point or behind it.
def scan (cs : List Char) : Option Numeral :=
  match cs.takeWhile Char.isDigit, cs.dropWhile Char.isDigit with
  | [], '.' :: rest =>
    match rest.takeWhile Char.isDigit with
    | [] => none
    | ds => some ⟨[], some ds, scanPower (rest.dropWhile Char.isDigit)⟩
  | [], _ => none
  | ws, '.' :: rest =>
    some ⟨ws, some (rest.takeWhile Char.isDigit), scanPower (rest.dropWhile Char.isDigit)⟩
  | ws, rest => some ⟨ws, none, scanPower rest⟩

def ofList? (cs : List Char) : Option Numeral := do
  let n ← scan cs
  if n.length = cs.length then some n else none

end Numeral

end InfixAlgebra
