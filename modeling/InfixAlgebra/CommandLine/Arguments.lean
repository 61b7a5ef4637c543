import InfixAlgebra.Decimal.Numeral

namespace InfixAlgebra

-- The arguments of a command, sorted into options and operands.

inductive OptionName
  | json
  | config
  | maxDepth
  | verbose
  | binding
  | wrt
  | coefficients
  | constants
  | names
  deriving DecidableEq, Repr

namespace OptionName

def long : OptionName → String
  | json         => "json"
  | config       => "config"
  | maxDepth     => "max-depth"
  | verbose      => "verbose"
  | binding      => "var"
  | wrt          => "wrt"
  | coefficients => "coefficients"
  | constants    => "constants"
  | names        => "names"

def short? : OptionName → Option Char
  | json    => some 'j'
  | config  => some 'c'
  | verbose => some 'v'
  | wrt     => some 'w'
  | _       => none

def takesValue : OptionName → Bool
  | json | verbose => false
  | _              => true

def isRepeatable : OptionName → Bool
  | verbose | binding | names => true
  | _                         => false

def common : List OptionName := [json, config, maxDepth, verbose]

end OptionName

structure Signature where
  options : List OptionName
  operands : Nat
  -- The operands for which a negative number is meant where an option could be.
  mayBeNegative : Nat → Bool

-- Options without a value have an empty one.
structure Arguments where
  options : List (OptionName × String)
  operands : List String
  deriving DecidableEq, Repr

namespace Arguments

def empty : Arguments := ⟨[], []⟩

def addOption (a : Arguments) (o : OptionName) (value : String) : Arguments :=
  { a with options := a.options ++ [(o, value)] }

def addOperand (a : Arguments) (value : String) : Arguments :=
  { a with operands := a.operands ++ [value] }

def values (a : Arguments) (o : OptionName) : List String :=
  (a.options.filter (·.1 = o)).map (·.2)

def value? (a : Arguments) (o : OptionName) : Option String :=
  (a.values o).getLast?

def has (a : Arguments) (o : OptionName) : Bool :=
  !(a.values o).isEmpty

-- Digits with a point somewhere behind the first one, perhaps followed by an `e` or `E` and digits.
def isPlainNumber (cs : List Char) : Bool :=
  match cs.span (fun c => c != 'e' && c != 'E') with
  | (mantissa, [])            => isMantissa mantissa
  | (mantissa, _ :: exponent) =>
    !mantissa.isEmpty && isMantissa mantissa && !exponent.isEmpty && exponent.all Char.isDigit
where
  isMantissa (cs : List Char) : Bool :=
    cs.all (fun c => c.isDigit || c == '.') && cs.count '.' ≤ 1 && cs.head? != some '.'

def attached? : List Char → Option String
  | []        => none
  | '=' :: cs => some (String.ofList cs)
  | cs        => some (String.ofList cs)

-- The options that are given together behind one dash. The last one of them may still want a value.
def shortOptions (s : Signature) (a : Arguments) :
    List Char → Option (Arguments × Option OptionName)
  | []      => some (a, none)
  | c :: cs => do
    let o ← s.options.find? (·.short? == some c)
    if o.takesValue then
      match attached? cs with
      | some value => some (a.addOption o value, none)
      | none       => some (a, some o)
    else
      shortOptions s (a.addOption o "") cs

def longOption (s : Signature) (a : Arguments) (cs : List Char) :
    Option (Arguments × Option OptionName) := do
  let (name, rest) := cs.span (· != '=')
  let o ← s.options.find? (·.long.toList == name)
  match o.takesValue, rest with
  | true, []          => some (a, some o)
  | true, _ :: value  => some (a.addOption o (String.ofList value), none)
  | false, []         => some (a.addOption o "", none)
  | false, _ :: _     => none

inductive Form
  | dashes
  | long (cs : List Char)
  | short (cs : List Char)
  | other

def form (arg : String) : Form :=
  match arg.toList with
  | ['-', '-']      => .dashes
  | '-' :: '-' :: cs => .long cs
  | ['-']           => .other
  | '-' :: cs       => .short cs
  | _               => .other

structure Reading where
  arguments : Arguments
  -- An option that waits for its value.
  pending : Option OptionName
  -- Behind two dashes everything is an operand.
  onlyOperands : Bool

namespace Reading

def start : Reading := ⟨empty, none, false⟩

def addOperand (r : Reading) (arg : String) : Reading :=
  { r with arguments := r.arguments.addOperand arg }

-- Whether what looks like options is a negative number that may stand here.
def isNegativeOperand (s : Signature) (r : Reading) (cs : List Char) : Bool :=
  s.mayBeNegative r.arguments.operands.length && isPlainNumber cs

def withOptions (parsed : Option (Arguments × Option OptionName)) : Option Reading :=
  parsed.map fun (a, pending) => ⟨a, pending, false⟩

def next (s : Signature) (r : Reading) (arg : String) : Option Reading :=
  if r.onlyOperands then
    some (r.addOperand arg)
  else
    match r.pending, form arg with
    | none, .dashes    => some { r with onlyOperands := true }
    | none, .other     => some (r.addOperand arg)
    | none, .long cs   => withOptions (longOption s r.arguments cs)
    | none, .short cs  =>
      if r.isNegativeOperand s cs then
        some (r.addOperand arg)
      else
        withOptions (shortOptions s r.arguments cs)
    | some o, .other   => some ⟨r.arguments.addOption o arg, none, false⟩
    | some o, .short cs =>
      if r.isNegativeOperand s cs then some ⟨r.arguments.addOption o arg, none, false⟩ else none
    | some _, _        => none

def finish (s : Signature) (r : Reading) : Option Arguments :=
  let a := r.arguments
  let once := s.options.all fun o => o.isRepeatable || (a.values o).length ≤ 1
  if r.pending.isNone && a.operands.length == s.operands && once then some a else none

end Reading

def parse? (s : Signature) (args : List String) : Option Arguments := do
  (← args.foldlM (Reading.next s) .start).finish s

def splitAtName? (s : Signature) (args : List String) :
    Option (Arguments × String × List String) :=
  go .start args
where
  go (r : Reading) : List String → Option (Arguments × String × List String)
    | []          => none
    | arg :: rest =>
      match r.pending, r.onlyOperands, form arg with
      | none, false, .other => do return (← r.finish s, arg, rest)
      | _, _, _             => do go (← r.next s arg) rest

end Arguments

end InfixAlgebra
