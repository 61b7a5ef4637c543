import Mathlib
import InfixAlgebra.Decimal.Numeral

namespace InfixAlgebra

-- What can be checked of each of the ten digits holds of all digits.
theorem of_isDigit {p : Char → Bool} {c : Char}
    (h : ['0', '1', '2', '3', '4', '5', '6', '7', '8', '9'].all p) (hc : c.isDigit) : p c := by
  simp only [Char.isDigit, Bool.and_eq_true, decide_eq_true_eq, UInt32.le_iff_toNat_le] at hc
  have hmem : ∀ n < 58, 48 ≤ n →
      Char.ofNat n ∈ ['0', '1', '2', '3', '4', '5', '6', '7', '8', '9'] := by decide
  rw [← Char.ofNat_toNat c]
  exact List.all_eq_true.mp h _ (hmem c.toNat (Nat.lt_succ_of_le hc.2) hc.1)

-- What may not stand right behind a numeral, where it would be taken for more of it.
def Numeral.continues (c : Char) : Bool :=
  c.isDigit || c == '.' || c == 'e' || c == 'E'

def HeadNot (p : Char → Bool) (cs : List Char) : Prop :=
  ∀ c ∈ cs.head?, p c = false

namespace HeadNot

variable {p q : Char → Bool} {c : Char} {cs ds : List Char}

theorem nil : HeadNot p [] :=
  nofun

theorem cons_iff : HeadNot p (c :: cs) ↔ p c = false := by
  simp [HeadNot]

theorem mono (h : HeadNot q cs) (hpq : ∀ c, p c → q c) : HeadNot p cs := by
  intro c hc
  have hq := h c hc
  cases hp : p c
  case false => rfl
  case true  => exact absurd (hpq c hp) (by simp [hq])

theorem takeWhile_append (hd : ∀ c ∈ ds, p c) (h : HeadNot p cs) : (ds ++ cs).takeWhile p = ds := by
  rw [List.takeWhile_append_of_pos hd]
  cases cs with
  | nil       => simp
  | cons c cs => simp [cons_iff.mp h]

theorem dropWhile_append (hd : ∀ c ∈ ds, p c) (h : HeadNot p cs) : (ds ++ cs).dropWhile p = cs := by
  rw [List.dropWhile_append_of_pos hd]
  cases cs with
  | nil       => rfl
  | cons c cs => simp [cons_iff.mp h]

theorem dropWhile (p : Char → Bool) (cs : List Char) : HeadNot p (cs.dropWhile p) := by
  intro c hc
  cases hcs : cs.dropWhile p with
  | nil => simp [hcs] at hc
  | cons d ds =>
    have hd := List.head_dropWhile_not p (l := cs) (by simp [hcs])
    simp_all

end HeadNot

namespace Numeral

variable {cs ds ws fs rest : List Char} {n : Numeral} {p : Power}

structure Power.WellFormed (p : Power) : Prop where
  letter : p.letter = 'e' ∨ p.letter = 'E'
  sign   : p.sign = none ∨ p.sign = some '+' ∨ p.sign = some '-'
  digits : ∀ c ∈ p.digits, c.isDigit
  nonempty : p.digits ≠ []

-- A numeral as texts may have it: with a digit before its point or behind it.
structure Admitted (n : Numeral) : Prop where
  whole    : ∀ c ∈ n.whole, c.isDigit
  fraction : ∀ fs ∈ n.fraction, ∀ c ∈ fs, c.isDigit
  digits   : n.whole ++ n.fraction.getD [] ≠ []
  power    : ∀ p ∈ n.power, p.WellFormed

-- A numeral as this library writes them: with a digit before the point.
structure WellFormed (n : Numeral) : Prop where
  whole    : ∀ c ∈ n.whole, c.isDigit
  nonempty : n.whole ≠ []
  fraction : ∀ fs ∈ n.fraction, ∀ c ∈ fs, c.isDigit
  power    : ∀ p ∈ n.power, p.WellFormed

theorem WellFormed.admitted (h : n.WellFormed) : n.Admitted where
  whole    := h.whole
  fraction := h.fraction
  digits   := List.append_ne_nil_of_left_ne_nil h.nonempty _
  power    := h.power

theorem Admitted.exists_cons (h : n.Admitted) : ∃ c cs, n.toList = c :: cs ∧ (c.isDigit ∨ c = '.') := by
  obtain ⟨whole, fraction, power⟩ := n
  cases whole with
  | cons c cs => exact ⟨c, _, rfl, .inl (h.whole c (by simp))⟩
  | nil =>
    cases fraction with
    | none    => exact absurd rfl h.digits
    | some fs => exact ⟨'.', _, rfl, .inr rfl⟩

theorem WellFormed.exists_cons {n : Numeral} (h : n.WellFormed) :
    ∃ c cs, n.toList = c :: cs ∧ c.isDigit := by
  obtain ⟨whole, fraction, power⟩ := n
  cases whole with
  | nil       => exact absurd rfl h.nonempty
  | cons c cs => exact ⟨c, _, rfl, h.whole c (by simp)⟩

theorem scanPower_ending {l : Char} {s : Option Char} (hd : ∀ c ∈ ds, c.isDigit) (hne : ds ≠ [])
    (hr : HeadNot Char.isDigit rest) : scanPower.ending l s (ds ++ rest) = some ⟨l, s, ds⟩ := by
  rw [scanPower.ending, HeadNot.takeWhile_append hd hr]
  split
  case h_1 => exact absurd rfl hne
  case h_2 => rfl

theorem scanPower_signed {l : Char} (hd : ∀ c ∈ ds, c.isDigit) (hne : ds ≠ [])
    (hr : HeadNot Char.isDigit rest) :
    scanPower.signed l (ds ++ rest) = some ⟨l, none, ds⟩ := by
  rw [← scanPower_ending hd hne hr]
  cases ds with
  | nil => exact absurd rfl hne
  | cons d ds =>
    have hdigit := hd d (by simp)
    unfold scanPower.signed
    split
    case h_3 => rfl
    all_goals
      rename_i heq
      simp only [List.cons_append, List.cons.injEq] at heq
      simp [heq.1] at hdigit

theorem scanPower_toList (h : p.WellFormed) (hr : HeadNot Char.isDigit rest) :
    scanPower (p.toList ++ rest) = some p := by
  obtain ⟨letter, sign, digits⟩ := p
  obtain ⟨hl, hs, hd, hne⟩ := h
  have hsigned {l : Char} : scanPower.signed l (sign.toList ++ digits ++ rest) =
      some ⟨l, sign, digits⟩ := by
    rcases hs with rfl | rfl | rfl
    case inl     => exact scanPower_signed hd hne hr
    case inr.inl => exact scanPower_ending hd hne hr
    case inr.inr => exact scanPower_ending hd hne hr
  rcases hl with rfl | rfl <;> exact hsigned

theorem scanPower_none (hr : HeadNot continues rest) : scanPower rest = none := by
  unfold scanPower
  split
  case h_3 => rfl
  all_goals simp [HeadNot.cons_iff, continues] at hr

theorem scanPower_getD (h : ∀ p ∈ n.power, p.WellFormed) (hr : HeadNot continues rest) :
    scanPower (n.power.elim [] Power.toList ++ rest) = n.power := by
  have hdigit : HeadNot Char.isDigit rest := hr.mono fun c hc => by simp [continues, hc]
  cases hp : n.power with
  | none   => exact scanPower_none hr
  | some p => exact scanPower_toList (h p hp) hdigit

-- What follows the digits of a numeral is not one more of them.
theorem headNot_power (h : ∀ p ∈ n.power, p.WellFormed) (hr : HeadNot continues rest) :
    HeadNot (fun c => c.isDigit || c == '.') (n.power.elim [] Power.toList ++ rest) := by
  cases hp : n.power with
  | none   => exact hr.mono fun c hc => by simp_all [continues]
  | some p => rcases (h p hp).letter with hl | hl <;> simp [Power.toList, HeadNot.cons_iff, hl]

theorem scan_point (hd : ∀ c ∈ ds, c.isDigit) (h : ds ++ cs.takeWhile Char.isDigit ≠ []) :
    scan (ds ++ '.' :: cs) =
      some ⟨ds, some (cs.takeWhile Char.isDigit), scanPower (cs.dropWhile Char.isDigit)⟩ := by
  have hpoint : HeadNot Char.isDigit ('.' :: cs) := by simp [HeadNot.cons_iff]
  rw [scan, HeadNot.takeWhile_append hd hpoint, HeadNot.dropWhile_append hd hpoint]
  cases ds with
  | cons => rfl
  | nil =>
    simp only
    split
    case h_1 hnil => exact absurd hnil h
    case h_2      => rfl

-- A numeral is found where it stands, whatever follows that does not go on with it.
theorem Admitted.scan_toList_append (h : n.Admitted) (hr : HeadNot continues rest) :
    scan (n.toList ++ rest) = some n := by
  have hpower := scanPower_getD h.power hr
  have hhead := headNot_power h.power hr
  have hdigit : HeadNot Char.isDigit (n.power.elim [] Power.toList ++ rest) :=
    hhead.mono fun c hc => by simp [hc]
  obtain ⟨whole, fraction, power⟩ := n
  obtain ⟨hw, hf, hne, -⟩ := h
  dsimp only at hpower hhead hdigit hw hne hf
  cases fraction with
  | some fs =>
    have hfs := hf fs rfl
    have htext : toList ⟨whole, some fs, power⟩ ++ rest =
        whole ++ '.' :: (fs ++ (power.elim [] Power.toList ++ rest)) := by simp [toList]
    have htake := HeadNot.takeWhile_append hfs hdigit
    have hdrop := HeadNot.dropWhile_append hfs hdigit
    rw [htext, scan_point hw (by rwa [htake]), htake, hdrop, hpower]
  | none =>
    have htext : toList ⟨whole, none, power⟩ ++ rest =
        whole ++ (power.elim [] Power.toList ++ rest) := by simp [toList]
    rw [htext, scan, HeadNot.takeWhile_append hw hdigit, HeadNot.dropWhile_append hw hdigit]
    split
    case h_1 => exact absurd rfl hne
    case h_2 => exact absurd rfl hne
    case h_3 hpoint => simp [hpoint, HeadNot.cons_iff] at hhead
    case h_4 => rw [hpower]

theorem scan_toList_append (h : n.WellFormed) (hr : HeadNot continues rest) :
    scan (n.toList ++ rest) = some n :=
  h.admitted.scan_toList_append hr

end Numeral

end InfixAlgebra
