import Mathlib
import InfixAlgebra.Decimal.Layout
import InfixAlgebra.Proofs.Decimal.Numeral

namespace InfixAlgebra

namespace Layout

variable {l : Layout} {digits : List Char} {leading : Int}

def positionalNumeral (digits : List Char) (leading : Int) : Numeral :=
  if leading < 0 then
    ⟨['0'], some (zeros (-leading - 1).toNat ++ digits), none⟩
  else
    let whole := leading.toNat + 1
    if digits.length ≤ whole then
      ⟨digits ++ zeros (whole - digits.length), none, none⟩
    else
      ⟨digits.take whole, some (digits.drop whole), none⟩

def exponentialNumeral (l : Layout) (digits : List Char) (leading : Int) : Numeral where
  whole    := digits.take 1
  fraction := if digits.length ≤ 1 then none else some digits.tail
  power    := some {
    letter := 'e'
    sign   := (if leading < 0 then "-" else l.positiveSign).toList.head?
    digits := Nat.toDigits 10 leading.natAbs }

def numeral (l : Layout) (digits : List Char) (leading : Int) : Numeral :=
  if l.isPositional leading then positionalNumeral digits leading
  else l.exponentialNumeral digits leading

theorem positional_eq_toList (h : l.wholeEnd = "") :
    l.positional digits leading = (positionalNumeral digits leading).toList := by
  unfold positional positionalNumeral
  split
  case isTrue => simp [Numeral.toList]
  case isFalse =>
    simp only [h]
    split <;> simp [Numeral.toList]

theorem exponential_eq_toList (h : l.positiveSign.length ≤ 1) :
    l.exponential digits leading = (l.exponentialNumeral digits leading).toList := by
  have hsign : (if leading < 0 then "-" else l.positiveSign).toList.head?.toList =
      (if leading < 0 then "-" else l.positiveSign).toList := by
    split
    case isTrue  => rfl
    case isFalse =>
      rw [← String.length_toList] at h
      generalize l.positiveSign.toList = cs at h
      cases cs with
      | nil => rfl
      | cons c cs =>
        cases cs with
        | nil      => rfl
        | cons _ _ => simp at h
  unfold exponential exponentialNumeral
  split
  case h_1 => simp [Numeral.toList, Numeral.Power.toList, hsign]
  case h_2 hne =>
    cases digits with
    | nil => simp [Numeral.toList, Numeral.Power.toList, hsign]
    | cons d ds =>
      cases ds with
      | nil      => simp [Numeral.toList, Numeral.Power.toList, hsign]
      | cons r s => exact absurd rfl (hne d r s)

theorem unsigned_eq_toList (hw : l.wholeEnd = "") (hs : l.positiveSign.length ≤ 1) :
    l.unsigned digits leading = (l.numeral digits leading).toList := by
  unfold unsigned numeral
  split
  case isTrue  => exact positional_eq_toList hw
  case isFalse => exact exponential_eq_toList hs

theorem isDigit_of_mem_zeros {n : Nat} {c : Char} (h : c ∈ zeros n) : c.isDigit := by
  rw [(List.mem_replicate.mp h).2]
  rfl

theorem wellFormed_positionalNumeral (hd : ∀ c ∈ digits, c.isDigit) :
    (positionalNumeral digits leading).WellFormed := by
  unfold positionalNumeral
  split
  case isTrue =>
    refine ⟨by simp, by simp, ?_, nofun⟩
    intro fs hfs c hc
    obtain rfl := Option.some.inj hfs
    rcases List.mem_append.mp hc with hc | hc
    case inl => exact isDigit_of_mem_zeros hc
    case inr => exact hd c hc
  case isFalse =>
    dsimp only
    split
    case isTrue hlen =>
      refine ⟨?_, ?_, nofun, nofun⟩
      · intro c hc
        rcases List.mem_append.mp hc with hc | hc
        case inl => exact hd c hc
        case inr => exact isDigit_of_mem_zeros hc
      · intro hnil
        have hlen := congrArg List.length hnil
        simp only [zeros, List.length_append, List.length_replicate, List.length_nil] at hlen
        omega
    case isFalse hlen =>
      refine ⟨fun c hc => hd c (List.mem_of_mem_take hc), ?_, ?_, nofun⟩
      · intro hnil
        have htake := congrArg List.length hnil
        simp only [List.length_take, List.length_nil] at htake
        omega
      · intro fs hfs c hc
        obtain rfl := Option.some.inj hfs
        exact hd c (List.mem_of_mem_drop hc)

theorem wellFormed_exponentialNumeral (hs : l.positiveSign = "" ∨ l.positiveSign = "+")
    (hd : ∀ c ∈ digits, c.isDigit) (hne : digits ≠ []) :
    (l.exponentialNumeral digits leading).WellFormed := by
  refine ⟨fun c hc => hd c (List.mem_of_mem_take hc), ?_, ?_, ?_⟩
  · simpa [exponentialNumeral] using hne
  · intro fs hfs c hc
    simp only [exponentialNumeral] at hfs
    split at hfs
    case isTrue  => cases hfs
    case isFalse =>
      obtain rfl := Option.some.inj hfs
      exact hd c (List.mem_of_mem_tail hc)
  · intro p hp
    obtain rfl := Option.some.inj hp
    refine ⟨.inl rfl, ?_, fun c hc => ?_, Nat.toDigits_ne_nil⟩
    · dsimp only
      split
      case isTrue  => exact .inr (.inr rfl)
      case isFalse => rcases hs with hs | hs <;> simp [hs]
    · exact Nat.isDigit_of_mem_toDigits (by decide) (by decide) hc

theorem wellFormed_numeral (hs : l.positiveSign = "" ∨ l.positiveSign = "+")
    (hd : ∀ c ∈ digits, c.isDigit) (hne : digits ≠ []) : (l.numeral digits leading).WellFormed := by
  unfold numeral
  split
  case isTrue  => exact wellFormed_positionalNumeral hd
  case isFalse => exact wellFormed_exponentialNumeral hs hd hne

-- A plus in front of a power of ten does not change it.
theorem decimal_exponentialNumeral {m : Layout} (hl : l.positiveSign = "" ∨ l.positiveSign = "+")
    (hm : m.positiveSign = "" ∨ m.positiveSign = "+") :
    (l.exponentialNumeral digits leading).decimal =
      (m.exponentialNumeral digits leading).decimal := by
  by_cases h : leading < 0
  case pos => simp [exponentialNumeral, h]
  case neg =>
    rcases hl with hl | hl <;> rcases hm with hm | hm <;>
      simp [exponentialNumeral, Numeral.decimal, Numeral.Power.value, h, hl, hm]

theorem isDigit_of_mem_significant {d : Decimal} {c : Char} (h : c ∈ (significant d).1) :
    c.isDigit := by
  have hc := List.mem_reverse.mp ((List.dropWhile_sublist _).mem (List.mem_reverse.mp h))
  exact Nat.isDigit_of_mem_toDigits (by decide) (by decide) hc

end Layout

end InfixAlgebra
