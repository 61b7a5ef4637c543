import InfixAlgebra.Decimal.Numeral

namespace InfixAlgebra

-- Structured data. Numbers and strings are kept as they are spelled, the latter without their
-- quotes; what they stand for is up to whoever looks at them. Fields keep their order and may occur
-- more than once.
inductive Json
  | null
  | bool (b : Bool)
  | number (spelling : List Char)
  | string (spelling : List Char)
  | array (items : List Json)
  | object (fields : List (List Char × Json))

namespace Json

-- The text that a string stands for.

def hexValue? (c : Char) : Option Nat :=
  if c.isDigit then some (c.toNat - '0'.toNat)
  else if 'a' ≤ c && c ≤ 'f' then some (c.toNat - 'a'.toNat + 10)
  else if 'A' ≤ c && c ≤ 'F' then some (c.toNat - 'A'.toNat + 10)
  else none

def unit? (a b c d : Char) : Option Nat := do
  return (((← hexValue? a) * 16 + (← hexValue? b)) * 16 + (← hexValue? c)) * 16 + (← hexValue? d)

def isHighSurrogate (u : Nat) : Bool :=
  0xD800 ≤ u && u < 0xDC00

def isLowSurrogate (u : Nat) : Bool :=
  0xDC00 ≤ u && u < 0xE000

def ofShortEscape? : Char → Option Char
  | '"'  => some '"'
  | '\\' => some '\\'
  | '/'  => some '/'
  | 'b'  => some '\x08'
  | 'f'  => some '\x0c'
  | 'n'  => some '\n'
  | 'r'  => some '\r'
  | 't'  => some '\t'
  | _    => none

-- Resolves escape sequences. Half of a surrogate pair stands for nothing.
def unescape? : List Char → Option (List Char)
  | [] => some []
  | '\\' :: 'u' :: a :: b :: c :: d :: '\\' :: 'u' :: e :: f :: g :: h :: rest => do
    let u ← unit? a b c d
    if isHighSurrogate u then
      let v ← unit? e f g h
      if isLowSurrogate v then
        return Char.ofNat (0x10000 + (u - 0xD800) * 0x400 + (v - 0xDC00)) :: (← unescape? rest)
      else
        none
    else if isLowSurrogate u then
      none
    else
      return Char.ofNat u :: (← unescape? ('\\' :: 'u' :: e :: f :: g :: h :: rest))
  | '\\' :: 'u' :: a :: b :: c :: d :: rest => do
    let u ← unit? a b c d
    if isHighSurrogate u || isLowSurrogate u then
      none
    else
      return Char.ofNat u :: (← unescape? rest)
  | '\\' :: c :: rest => do
    return (← ofShortEscape? c) :: (← unescape? rest)
  | c :: rest => do
    return c :: (← unescape? rest)

def escapeChar (c : Char) : List Char :=
  match c with
  | '"'    => ['\\', '"']
  | '\\'   => ['\\', '\\']
  | '\x08' => ['\\', 'b']
  | '\x0c' => ['\\', 'f']
  | '\n'   => ['\\', 'n']
  | '\r'   => ['\\', 'r']
  | '\t'   => ['\\', 't']
  | c      =>
    if c.toNat < 0x20 then
      ['\\', 'u', '0', '0', Nat.digitChar (c.toNat / 16), Nat.digitChar (c.toNat % 16)]
    else
      [c]

def escape (s : String) : List Char :=
  s.toList.flatMap escapeChar

-- The numbers that a numeral stands for.

def numeral? (spelling : List Char) : Option (Bool × Numeral) :=
  match spelling with
  | '-' :: cs => (Numeral.ofList? cs).map (true, ·)
  | cs        => (Numeral.ofList? cs).map (false, ·)

def natural? (spelling : List Char) (bound : Nat) : Option Nat := do
  let (negative, n) ← numeral? spelling
  if negative || n.fraction.isSome || n.power.isSome then none
  else
    let value := Decimal.natOfDigits n.whole
    if value < bound then some value else none

-- Views of data that stop at the first thing that is not as expected.

def string? : Json → Option String
  | string s => (unescape? s).map String.ofList
  | _        => none

def nat? (bound : Nat) : Json → Option Nat
  | number s => natural? s bound
  | _        => none

def list? {β : Type} (item? : Json → Option β) : Json → Option (List β)
  | array items => items.mapM item?
  | _           => none

def fields? : Json → Option (List (String × Json))
  | object fields => fields.mapM fun (key, value) => do
    return (String.ofList (← unescape? key), value)
  | _             => none

def allAt (name : String) (fields : List (String × Json)) : List Json :=
  (fields.filter (·.1 == name)).map (·.2)

def ofText (s : String) : Json :=
  string (escape s)

def ofNat (n : Nat) : Json :=
  number (Nat.toDigits 10 n)

def ofFields (fields : List (String × Json)) : Json :=
  object (fields.map fun (key, value) => (escape key, value))

end Json

end InfixAlgebra
