import InfixAlgebra.Json.Basic

namespace InfixAlgebra

namespace Json

abbrev Read (β : Type) := List Char → Option (β × List Char)

namespace Read

def isBlank (c : Char) : Bool :=
  c == ' ' || c == '\t' || c == '\n' || c == '\r'

def skipBlanks (cs : List Char) : List Char :=
  cs.dropWhile isBlank

def stringBody : Read (List Char)
  | '"' :: rest => some ([], rest)
  | '\\' :: 'u' :: a :: b :: c :: d :: rest =>
    if (unit? a b c d).isSome then
      (stringBody rest).map fun (s, rest) => ('\\' :: 'u' :: a :: b :: c :: d :: s, rest)
    else
      none
  | '\\' :: c :: rest =>
    if (ofShortEscape? c).isSome then
      (stringBody rest).map fun (s, rest) => ('\\' :: c :: s, rest)
    else
      none
  | c :: rest =>
    if c == '\\' || c.toNat < 0x20 then none
    else (stringBody rest).map fun (s, rest) => (c :: s, rest)
  | [] => none

-- A number starts with zero only if this is all that stands before the point, and a point has
-- digits on both sides.
def isNumeral (n : Numeral) : Bool :=
  match n.whole with
  | []     => false
  | ['0']  => n.fraction != some []
  | c :: _ => c != '0' && n.fraction != some []

def numberBody : Read (List Char) := fun cs => do
  let n ← Numeral.scan cs
  if isNumeral n then some (n.toList, cs.drop n.length) else none

def numberBodySigned : Read (List Char)
  | '-' :: cs => (numberBody cs).map fun (s, rest) => ('-' :: s, rest)
  | cs        => numberBody cs

-- Items between commas up to the closing bracket, of which there is at least one. No item is
-- without characters, so there are no more rounds than those.
def itemsFrom {β : Type} (closing : Char) (item : Read β) : (rounds : List Char) → Read (List β)
  | [], _ => none
  | _ :: rounds, cs => do
    let (x, rest) ← item cs
    match skipBlanks rest with
    | c :: rest =>
      if c == closing then
        some ([x], rest)
      else if c == ',' then
        let (xs, rest) ← itemsFrom closing item rounds rest
        some (x :: xs, rest)
      else
        none
    | [] => none

def items {β : Type} (closing : Char) (item : Read β) : Read (List β) := fun cs =>
  match skipBlanks cs with
  | c :: rest => if c == closing then some ([], rest) else itemsFrom closing item cs (c :: rest)
  | []        => none

def field (value : Read Json) : Read (List Char × Json) := fun cs =>
  match skipBlanks cs with
  | '"' :: rest => do
    let (key, rest) ← stringBody rest
    match skipBlanks rest with
    | ':' :: rest => do
      let (v, rest) ← value rest
      some ((key, v), rest)
    | _ => none
  | _ => none

-- A value in which brackets are nested less than `n` deep.
def value : Nat → Read Json
  | 0, _ => none
  | n + 1, cs =>
    match skipBlanks cs with
    | 'n' :: 'u' :: 'l' :: 'l' :: rest        => some (null, rest)
    | 't' :: 'r' :: 'u' :: 'e' :: rest        => some (bool true, rest)
    | 'f' :: 'a' :: 'l' :: 's' :: 'e' :: rest => some (bool false, rest)
    | '"' :: rest => (stringBody rest).map fun (s, rest) => (string s, rest)
    | '[' :: rest => (items ']' (value n) rest).map fun (xs, rest) => (array xs, rest)
    | '{' :: rest => (items '}' (field (value n)) rest).map fun (fs, rest) => (object fs, rest)
    | cs          => (numberBodySigned cs).map fun (s, rest) => (number s, rest)

end Read

def ofList? (cs : List Char) : Option Json := do
  let (v, rest) ← Read.value (cs.length + 1) cs
  if (Read.skipBlanks rest).isEmpty then some v else none

def parse? (text : String) : Option Json :=
  ofList? text.toList

end Json

end InfixAlgebra
