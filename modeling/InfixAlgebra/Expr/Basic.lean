import InfixAlgebra.Error

namespace InfixAlgebra

-- The grammar gives each call exactly one argument, but trees that were built otherwise may have
-- any number of them.
inductive Expr (α : Type)
  | number (x : α)
  | constant (c : Constant)
  | var (name : String)
  | neg (operand : Expr α)
  | binary (op : Operator) (left right : Expr α)
  | call (f : Elementary) (args : List (Expr α))
  deriving Repr

namespace Expr

variable {α : Type}

@[match_pattern] abbrev add (a b : Expr α) := binary .add a b
@[match_pattern] abbrev sub (a b : Expr α) := binary .sub a b
@[match_pattern] abbrev mul (a b : Expr α) := binary .mul a b
@[match_pattern] abbrev div (a b : Expr α) := binary .div a b
@[match_pattern] abbrev pow (a b : Expr α) := binary .pow a b

-- What holds of a call may be shown from what holds of each of its arguments.
@[elab_as_elim, induction_eliminator]
theorem induct {motive : Expr α → Prop}
    (number : ∀ x, motive (number x)) (constant : ∀ c, motive (constant c))
    (var : ∀ name, motive (var name)) (neg : ∀ a, motive a → motive (neg a))
    (binary : ∀ op a b, motive a → motive b → motive (binary op a b))
    (call : ∀ f args, (∀ a ∈ args, motive a) → motive (call f args)) (t : Expr α) : motive t :=
  match t with
  | .number x      => number x
  | .constant c    => constant c
  | .var name      => var name
  | .neg a         => neg a (induct number constant var neg binary call a)
  | .binary op a b =>
    binary op a b (induct number constant var neg binary call a)
      (induct number constant var neg binary call b)
  | .call f args   => call f args (forall_args args)
where
  forall_args : (args : List (Expr α)) → ∀ a ∈ args, motive a
    | b :: bs, _, h => (List.mem_cons.mp h).elim
      (fun e => e ▸ induct number constant var neg binary call b)
      (forall_args bs _)

mutual

-- Equality up to the equality of numbers, under which a number that is not finite may differ from
-- itself.
def same [BEq α] : Expr α → Expr α → Bool
  | number x, number y             => x == y
  | constant c, constant d         => c == d
  | var x, var y                   => x == y
  | neg a, neg b                   => same a b
  | binary op a b, binary op' c d  => op == op' && same a c && same b d
  | call f args, call g args'      => f == g && sameAll args args'
  | _, _                           => false
termination_by structural t => t

def sameAll [BEq α] : List (Expr α) → List (Expr α) → Bool
  | [], []           => true
  | a :: as, b :: bs => same a b && sameAll as bs
  | _, _             => false
termination_by structural ts => ts

end

instance [BEq α] : BEq (Expr α) := ⟨same⟩

mutual

def depth : Expr α → Nat
  | number _ | constant _ | var _ => 1
  | neg a                         => a.depth + 1
  | binary _ a b                  => max a.depth b.depth + 1
  | call _ args                   => depthOfAll args + 1
termination_by structural t => t

def depthOfAll : List (Expr α) → Nat
  | []      => 0
  | a :: as => max a.depth (depthOfAll as)
termination_by structural ts => ts

end

mutual

def size : Expr α → Nat
  | number _ | constant _ | var _ => 1
  | neg a                         => a.size + 1
  | binary _ a b                  => a.size + b.size + 1
  | call _ args                   => sizeOfAll args + 1
termination_by structural t => t

def sizeOfAll : List (Expr α) → Nat
  | []      => 0
  | a :: as => a.size + sizeOfAll as
termination_by structural ts => ts

end

mutual

def contains (name : String) : Expr α → Bool
  | number _ | constant _ => false
  | var x                 => x == name
  | neg a                 => a.contains name
  | binary _ a b          => a.contains name || b.contains name
  | call _ args           => anyContains name args
termination_by structural t => t

def anyContains (name : String) : List (Expr α) → Bool
  | []      => false
  | a :: as => a.contains name || anyContains name as
termination_by structural ts => ts

end

def checkDepth (limit : Nat) (t : Expr α) : Except (Error α) Unit :=
  if t.depth > limit then throw (.tooDeep limit) else pure ()

def number? : Expr α → Option α
  | number x => some x
  | _        => none

def isNumber [BEq α] (t : Expr α) (x : α) : Bool :=
  t.number?.any (· == x)

def isSum : Expr α → Bool
  | add _ _ | sub _ _ => true
  | _                 => false

end Expr

end InfixAlgebra
