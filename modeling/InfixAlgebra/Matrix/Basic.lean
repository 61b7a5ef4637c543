import InfixAlgebra.Error

namespace InfixAlgebra

-- A matrix with its entries row after row. A vector is a matrix of one column that is written
-- without its inner brackets.
structure Matrix (α : Type) where
  rows : Nat
  cols : Nat
  data : Array α
  isVector : Bool
  deriving DecidableEq, Repr

namespace Matrix

variable {α : Type}

structure WellFormed (m : Matrix α) : Prop where
  size : m.data.size = m.rows * m.cols
  vector : m.isVector → m.cols = 1

def shape (m : Matrix α) : Shape where
  rows     := m.rows
  cols     := m.cols
  isVector := m.isVector

def isSquare (m : Matrix α) : Bool :=
  m.rows == m.cols

def ofFn (rows cols : Nat) (f : Nat → Nat → α) : Matrix α where
  rows     := rows
  cols     := cols
  data     := Array.ofFn fun (k : Fin (rows * cols)) => f (k / cols) (k % cols)
  isVector := false

def ofVector (xs : List α) : Matrix α where
  rows     := xs.length
  cols     := 1
  data     := xs.toArray
  isVector := true

-- The first row says how long all rows have to be.
def ofRows (rows : List (List α)) : Except (Error α) (Matrix α) :=
  let cols := (rows.head?.map List.length).getD 0
  match rows.zipIdx.find? fun (row, _) => row.length != cols with
  | some (row, i) => throw (.shape (.raggedRow i cols row.length))
  | none          => pure ⟨rows.length, cols, rows.flatten.toArray, false⟩

-- The entry in row `i` and column `j`, and zero outside of the matrix.
def entry [Zero α] (m : Matrix α) (i j : Nat) : α :=
  m.data.getD (i * m.cols + j) 0

def row [Zero α] (m : Matrix α) (i : Nat) : List α :=
  (List.range m.cols).map (m.entry i)

def toRows [Zero α] (m : Matrix α) : List (List α) :=
  (List.range m.rows).map m.row

def map (f : α → α) (m : Matrix α) : Matrix α :=
  { m with data := m.data.map f }

section Render

variable [Zero α] [NumberText α]

def renderRow (xs : List α) : String :=
  "[" ++ ", ".intercalate (xs.map NumberText.display) ++ "]"

def render (m : Matrix α) : String :=
  if m.isVector then
    renderRow m.data.toList
  else
    "[" ++ ", ".intercalate (m.toRows.map renderRow) ++ "]"

end Render

end Matrix

inductive MatrixData (α : Type)
  | vector (xs : List α)
  | grid (rows : List (List α))
  deriving DecidableEq, Repr

namespace Matrix

variable {α : Type}

def ofData : MatrixData α → Except (Error α) (Matrix α)
  | .vector xs => pure (ofVector xs)
  | .grid rows => ofRows rows

end Matrix

end InfixAlgebra
