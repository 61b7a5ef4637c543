namespace InfixAlgebra

-- Values under names, in the order of the names.
structure NameMap (β : Type) where
  entries : List (String × β)
  deriving DecidableEq, Repr

namespace NameMap

variable {β : Type}

def empty : NameMap β := ⟨[]⟩

instance : EmptyCollection (NameMap β) := ⟨empty⟩

def isEmpty (m : NameMap β) : Bool :=
  m.entries.isEmpty

def size (m : NameMap β) : Nat :=
  m.entries.length

def find? (m : NameMap β) (name : String) : Option β :=
  m.entries.lookup name

def insert (m : NameMap β) (name : String) (value : β) : NameMap β :=
  ⟨go m.entries⟩
where
  go : List (String × β) → List (String × β)
    | [] => [(name, value)]
    | (key, old) :: rest =>
      if key < name then
        (key, old) :: go rest
      else if key = name then
        (name, value) :: rest
      else
        (name, value) :: (key, old) :: rest

def ofList (bindings : List (String × β)) : NameMap β :=
  bindings.foldl (fun m b => m.insert b.1 b.2) ∅

def values (m : NameMap β) : List β :=
  m.entries.map (·.2)

end NameMap

end InfixAlgebra
