import InfixAlgebra.Proofs.Parser.Grammar

namespace InfixAlgebra

variable {α : Type} {p q : Phrase} {ss ts us : List (Token α)}

-- The tokens of a phrase of kind `p`, however deeply its derivation nests.
def IsPhrase (p : Phrase) (ts : List (Token α)) : Prop :=
  ∃ n t, Derives p n ts t

def Begins (p : Phrase) (ts : List (Token α)) : Prop :=
  ∃ us, IsPhrase p (ts ++ us)

abbrev Sentence (ts : List (Token α)) : Prop :=
  IsPhrase .additive ts

-- The tokens that go on to a sentence.
abbrev Viable (ts : List (Token α)) : Prop :=
  Begins .additive ts

namespace IsPhrase

theorem begins (h : IsPhrase p ts) : Begins p ts :=
  ⟨[], by rwa [List.append_nil]⟩

theorem sum {op : Operator} (h : op = .add ∨ op = .sub) :
    IsPhrase .additive ts → IsPhrase .multiplicative us →
    IsPhrase .additive (ts ++ .operator op :: us) :=
  fun ⟨_, _, dt⟩ ⟨_, _, du⟩ =>
    ⟨_, _, .sum h (dt.mono (Nat.le_max_left ..)) (du.mono (Nat.le_max_right ..))⟩

theorem addend : IsPhrase .multiplicative ts → IsPhrase .additive ts :=
  fun ⟨_, _, d⟩ => ⟨_, _, .addend d⟩

theorem product {op : Operator} (h : op = .mul ∨ op = .div) :
    IsPhrase .multiplicative ts → IsPhrase .unary us →
    IsPhrase .multiplicative (ts ++ .operator op :: us) :=
  fun ⟨_, _, dt⟩ ⟨_, _, du⟩ =>
    ⟨_, _, .product h (dt.mono (Nat.le_max_left ..)) (du.mono (Nat.le_max_right ..))⟩

theorem factor : IsPhrase .unary ts → IsPhrase .multiplicative ts :=
  fun ⟨_, _, d⟩ => ⟨_, _, .factor d⟩

theorem negation : IsPhrase .unary ts → IsPhrase .unary (.operator .sub :: ts) :=
  fun ⟨_, _, d⟩ => ⟨_, _, .negation d⟩

theorem base : IsPhrase .primary ts → IsPhrase .unary ts :=
  fun ⟨_, _, d⟩ => ⟨_, _, .positive (.base d)⟩

theorem power :
    IsPhrase .primary ts → IsPhrase .unary us → IsPhrase .unary (ts ++ .operator .pow :: us) :=
  fun ⟨_, _, dt⟩ ⟨_, _, du⟩ =>
    ⟨_, _, .positive (.power (dt.mono (Nat.le_max_left ..)) (du.mono (Nat.le_max_right ..)))⟩

theorem number (x : α) : IsPhrase .primary [.number x] :=
  ⟨0, _, .number x⟩

theorem constant (c : Constant) : IsPhrase (α := α) .primary [.constant c] :=
  ⟨0, _, .constant c⟩

theorem var {s : String} (h : isVariableName s) : IsPhrase (α := α) .primary [.name s] :=
  ⟨0, _, .var h⟩

theorem call (f : Elementary) :
    IsPhrase .additive ts → IsPhrase .primary (.elementary f :: .opening :: ts ++ [.closing]) :=
  fun ⟨_, _, d⟩ => ⟨_, _, .call f d⟩

theorem parens : IsPhrase .additive ts → IsPhrase .primary (.opening :: ts ++ [.closing]) :=
  fun ⟨_, _, d⟩ => ⟨_, _, .parens d⟩

end IsPhrase

namespace Begins

theorem of_append : Begins p (ts ++ us) → Begins p ts :=
  fun ⟨vs, hp⟩ => ⟨us ++ vs, by rwa [← List.append_assoc]⟩

theorem mono (h : ∀ {ts}, IsPhrase (α := α) p ts → IsPhrase q ts) : Begins p ts → Begins q ts :=
  fun ⟨us, hp⟩ => ⟨us, h hp⟩

theorem negation : Begins .unary ts → Begins .unary (.operator .sub :: ts) :=
  fun ⟨us, hp⟩ => ⟨us, hp.negation⟩

theorem power (hs : IsPhrase .primary ss) :
    Begins .unary ts → Begins .unary (ss ++ .operator .pow :: ts) :=
  fun ⟨us, hp⟩ => ⟨us, by simpa using hs.power hp⟩

theorem call (f : Elementary) :
    Begins .additive ts → Begins .primary (.elementary f :: .opening :: ts) :=
  fun ⟨us, hp⟩ => ⟨us ++ [.closing], by simpa using hp.call f⟩

theorem parens : Begins .additive ts → Begins .primary (.opening :: ts) :=
  fun ⟨us, hp⟩ => ⟨us ++ [.closing], by simpa using hp.parens⟩

-- There is a phrase of every kind.
theorem nil (p : Phrase) : Begins (α := α) p [] := by
  have hc : IsPhrase (α := α) .primary [.constant .pi] := .constant .pi
  cases p with
  | primary        => exact ⟨_, hc⟩
  | power          => exact ⟨_, 0, _, .base (.constant .pi)⟩
  | unary          => exact ⟨_, hc.base⟩
  | multiplicative => exact ⟨_, hc.base.factor⟩
  | additive       => exact ⟨_, hc.base.factor.addend⟩

theorem of_function (f : Elementary) : Begins (α := α) .primary [.elementary f] :=
  of_append ((nil (α := α) .additive).call f)

end Begins

end InfixAlgebra
