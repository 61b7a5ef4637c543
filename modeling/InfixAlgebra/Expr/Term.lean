import InfixAlgebra.Expr.Folding
import InfixAlgebra.Expr.Printer

namespace InfixAlgebra

structure Term (α : Type) where
  coefficient : α
  factors : List (Expr α)

namespace Expr

variable {α : Type} [Scalar α] [NumberText α]

-- The factors of a product from left to right, without the numbers among them and their signs.
def factors : Expr α → List (Expr α)
  | number _ => []
  | neg a    => a.factors
  | mul a b  => a.factors ++ b.factors
  | t        => [t]

-- The numbers are multiplied in the order in which they stand.
def coefficientFrom (x : α) : Expr α → α
  | number y => x * y
  | neg a    => a.coefficientFrom (-x)
  | mul a b  => b.coefficientFrom (a.coefficientFrom x)
  | _        => x

def coefficient (t : Expr α) : α :=
  t.coefficientFrom 1

def rank : Expr α → Nat
  | number _   => 0
  | constant _ => 1
  | _          => 2

end Expr

structure SortKey where
  rank : Nat
  text : String
  deriving DecidableEq, Repr

namespace SortKey

def le (k l : SortKey) : Bool :=
  k.rank < l.rank || k.rank == l.rank && !decide (l.text < k.text)

-- Sorts by keys and leaves alone what has equal ones.
def sort {β : Type} (key : β → SortKey) (xs : List β) : List β :=
  ((xs.map fun x => (key x, x)).foldr insert []).map (·.2)
where
  insert (x : SortKey × β) : List (SortKey × β) → List (SortKey × β)
    | []      => [x]
    | y :: ys => if le x.1 y.1 then x :: y :: ys else y :: insert x ys

end SortKey

namespace Term

variable {α : Type} [Scalar α] [NumberText α]

def ofExpr (t : Expr α) : Term α :=
  ⟨t.coefficient, t.factors⟩

def toExpr (t : Term α) : Expr α :=
  match t.factors with
  | []      => .number t.coefficient
  | f :: fs =>
    if t.coefficient == 0 then .number 0
    else if t.coefficient == 1 then fs.foldl .mul f
    else if t.coefficient == -1 then .neg (fs.foldl .mul f)
    else fs.foldl .mul (.mul (.number t.coefficient) f)

-- Whether a coefficient other than one stands next to a sum, into which it has to go.
def scalesSum (t : Term α) : Bool :=
  !(t.coefficient == 1) && t.factors.length > 1 && t.factors.any Expr.isSum

-- The coefficient plays no role in the order of terms.
def sortKey (t : Term α) : SortKey :=
  match t.factors with
  | []     => ⟨0, ""⟩
  | f :: _ => ⟨f.rank, (toExpr ⟨1, t.factors⟩).render⟩

-- Adds a term to a sum in which like terms are merged.
def merge (t : Term α) : List (Term α) → List (Term α)
  | []      => [t]
  | u :: us =>
    if u.factors == t.factors then
      ⟨u.coefficient + t.coefficient, u.factors⟩ :: us
    else
      u :: merge t us

-- The sum of terms in their order. What has a negative coefficient is subtracted.
def sumOf (terms : List (Term α)) : Expr α :=
  match SortKey.sort sortKey terms with
  | []      => .number 0
  | t :: ts => ts.foldl append t.toExpr
where
  append (left : Expr α) (t : Term α) : Expr α :=
    if Scalar.lt t.coefficient 0 then
      .sub left (toExpr ⟨-t.coefficient, t.factors⟩)
    else
      .add left t.toExpr

end Term

structure Power (α : Type) where
  base : Expr α
  exponent : α

namespace Power

variable {α : Type} [Scalar α] [NumberText α]

def ofExpr : Expr α → Power α
  | .pow a (.number x) => ⟨a, x⟩
  | t                  => ⟨t, 1⟩

def toExpr (p : Power α) : Expr α :=
  if p.exponent == 1 then p.base else .pow p.base (.number p.exponent)

-- Multiplies a product by a power. Exponents over equal bases are added.
def merge (p : Power α) : List (Power α) → List (Power α)
  | []      => [p]
  | q :: qs =>
    if q.base == p.base then
      ⟨q.base, q.exponent + p.exponent⟩ :: qs
    else
      q :: merge p qs

def group (factors : List (Expr α)) : List (Expr α) :=
  let powers := factors.foldl (fun ps f => merge (ofExpr f) ps) []
  let kept   := powers.filter fun p => !(p.exponent == 0)
  SortKey.sort (fun (t : Expr α) => ⟨t.rank, t.render⟩) (kept.map toExpr)

end Power

end InfixAlgebra
