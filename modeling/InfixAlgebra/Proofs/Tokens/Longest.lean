import InfixAlgebra.Proofs.Printer.Scanning
import InfixAlgebra.Proofs.Tokens.Numerals

namespace InfixAlgebra

-- A character that takes one byte and is not blank. Tokens consist of no others.
structure Plain (c : Char) : Prop where
  size     : c.utf8Size = 1
  notBlank : Lexeme.isBlank c = false

instance (c : Char) : Decidable (Plain c) :=
  decidable_of_iff (c.utf8Size = 1 ∧ Lexeme.isBlank c = false)
    ⟨fun ⟨hs, hb⟩ => ⟨hs, hb⟩, fun ⟨hs, hb⟩ => ⟨hs, hb⟩⟩

namespace Plain

variable {c : Char} {cs : List Char}

theorem of_isDigit (h : c.isDigit) : Plain c :=
  of_decide_eq_true (InfixAlgebra.of_isDigit (p := fun c => decide (Plain c)) (by decide) h)

theorem of_isNamePart (h : Token.isNamePart c) : Plain c where
  size := by
    simp only [Token.isNamePart, Char.isAlphanum, Char.isAlpha, Char.isUpper, Char.isLower,
      Char.isDigit, Bool.or_eq_true, beq_iff_eq, decide_eq_true_eq, UInt32.le_iff_toNat_le,
      ge_iff_le, Bool.and_eq_true] at h
    rw [Char.utf8Size_eq_one_iff, UInt32.le_iff_toNat_le]
    rcases h with (((⟨_, h⟩ | ⟨_, h⟩) | ⟨_, h⟩) | rfl)
    case inr => decide
    all_goals exact h.trans (by decide)
  notBlank := by
    cases hb : Lexeme.isBlank c with
    | false => rfl
    | true  =>
      simp only [Lexeme.isBlank, Bool.or_eq_true, beq_iff_eq] at hb
      rcases hb with ((rfl | rfl) | rfl) | rfl <;> cases h

theorem of_mem_toList {p : Numeral.Power} (h : p.WellFormed) (hc : c ∈ p.toList) : Plain c := by
  have ⟨hl, hs, hd, _⟩ := h
  simp only [Numeral.Power.toList, List.cons_append, List.mem_cons, List.mem_append,
    Option.mem_toList] at hc
  rcases hc with rfl | hc | hc
  case inl     => rcases hl with hl | hl <;> simp only [hl] <;> decide
  case inr.inl => rcases hs with hs | hs | hs <;> cases hs.symm.trans hc <;> decide
  case inr.inr => exact of_isDigit (hd c hc)

theorem of_mem_numeral {n : Numeral} (h : n.Admitted) (hc : c ∈ n.toList) : Plain c := by
  simp only [Numeral.toList, List.mem_append] at hc
  rcases hc with (hc | hc) | hc
  case inl.inl => exact of_isDigit (h.whole c hc)
  case inl.inr =>
    cases hf : n.fraction with
    | none    => simp [hf] at hc
    | some fs =>
      rw [hf, Option.elim_some, List.mem_cons] at hc
      rcases hc with rfl | hc
      case inl => decide
      case inr => exact of_isDigit (h.fraction fs hf c hc)
  case inr =>
    cases hp : n.power with
    | none   => simp [hp] at hc
    | some p => exact of_mem_toList (h.power p hp) (by simpa [hp] using hc)

theorem utf8Len_eq (h : ∀ c ∈ cs, Plain c) : String.utf8Len cs = cs.length := by
  induction cs with
  | nil => rfl
  | cons c cs ih =>
    rw [String.utf8Len_cons, (h c (by simp)).size, List.length_cons,
      ih fun d hd => h d (List.mem_cons_of_mem c hd)]

end Plain

namespace Token

variable {α : Type} [NumberText α] {c : Char} {cs rest v w : List Char} {t u : Token α} {k : Nat}

-- The words that name the same thing in all texts.
def isReserved : Token α → Bool
  | constant _ | elementary _ => true
  | _                         => false

-- `Spells w t` says that a rule of the language makes `w` a spelling of `t`. Of a reserved word
-- there are two readings, as there is nothing else that keeps it from being a name.
inductive Spells : List Char → Token α → Prop
  | number {n : Numeral} : n.Admitted → Spells n.toList (.number (NumberText.ofDecimal n.decimal))
  | constant (k : Constant) : Spells k.name.toList (.constant k)
  | elementary (f : Elementary) : Spells f.name.toList (.elementary f)
  | name {w : List Char} : w.head?.any isNameStart → w.all isNamePart →
      Spells w (.name (String.ofList w))
  | operator (op : Operator) : Spells [op.symbol] (.operator op)
  | opening : Spells ['('] .opening
  | closing : Spells [')'] .closing
  | comma   : Spells [','] .comma

inductive Shape : List Char → Token α → Prop
  | word {w : List Char} {t} : w.head?.any isNameStart → w.all isNamePart → Shape w t
  | mark {c : Char} {t} : ofMark? c = some t → Shape [c] t
  | numeral {n : Numeral} {t} : n.Admitted → Shape n.toList t

theorem Spells.shape (h : Spells w t) : Shape w t := by
  cases h with
  | number hn    => exact .numeral hn
  | constant k   => cases k <;> exact .word rfl rfl
  | elementary f => cases f <;> exact .word rfl rfl
  | name hs hp   => exact .word hs hp
  | operator op  => cases op <;> exact .mark rfl
  | opening      => exact .mark rfl
  | closing      => exact .mark rfl
  | comma        => exact .mark rfl

theorem scan_numeral_alone {n : Numeral} (hn : n.Admitted) :
    scan n.toList =
      some ((number (NumberText.ofDecimal n.decimal) : Token α), n.toList.length) := by
  have hscan := scan_of_numeral (α := α) hn (hn.scan_toList_append .nil)
  rwa [List.append_nil] at hscan

-- A spelling at the start of a text is not longer than what the scanner finds there.
theorem Shape.exists_scan (h : Shape w t) (rest : List Char) :
    ∃ (u : Token α) (k : Nat), scan (w ++ rest) = some (u, k) ∧ w.length ≤ k := by
  cases h with
  | word hs hp =>
    have hall : (w ++ rest.takeWhile isNamePart).all isNamePart := by
      rw [List.all_append, hp]
      exact List.all_takeWhile
    have hhead : (w ++ rest.takeWhile isNamePart).head?.any isNameStart := by
      cases w with
      | nil  => cases hs
      | cons => exact hs
    have hscan := scan_word (α := α) hhead hall (.dropWhile isNamePart rest)
    rw [List.append_assoc, List.takeWhile_append_dropWhile] at hscan
    exact ⟨_, _, hscan, by simp⟩
  | mark hm => exact ⟨_, _, scan_mark hm, Nat.le_refl 1⟩
  | numeral hn =>
    have ⟨m, hm, hle⟩ := hn.exists_scan rest
    rw [← Numeral.length_toList, ← Numeral.length_toList] at hle
    exact ⟨_, _, scan_of_numeral hn hm, hle⟩

omit [NumberText α] in
theorem Shape.plain (h : Shape w t) (hc : c ∈ w) : Plain c := by
  cases h with
  | word hs hp => exact .of_isNamePart (List.all_eq_true.mp hp c hc)
  | mark hm =>
    obtain rfl := List.mem_singleton.mp hc
    unfold ofMark? at hm
    split at hm
    case h_9 => cases hm
    all_goals decide
  | numeral hn => exact .of_mem_numeral hn hc

theorem spells_ofWord (hs : w.head?.any isNameStart) (hp : w.all isNamePart) :
    Spells w (ofWord w : Token α) := by
  unfold ofWord
  split
  case h_1 k hk =>
    have hname := List.find?_some hk
    rw [← eq_of_beq hname]
    exact .constant k
  case h_2 f _ hf =>
    have hname := List.find?_some hf
    rw [← eq_of_beq hname]
    exact .elementary f
  case h_3 => exact .name hs hp

theorem spells_of_ofMark? (h : ofMark? c = some t) : Spells [c] t := by
  unfold ofMark? at h
  split at h
  case h_9 => cases h
  case h_1 => cases h; exact .operator .add
  case h_2 => cases h; exact .operator .sub
  case h_3 => cases h; exact .operator .mul
  case h_4 => cases h; exact .operator .div
  case h_5 => cases h; exact .operator .pow
  case h_6 => cases h; exact .opening
  case h_7 => cases h; exact .closing
  case h_8 => cases h; exact .comma

-- What the scanner finds is spelled by the rules, and the scanner finds the same in this spelling
-- alone.
theorem spells_of_scan (h : scan cs = some (t, k)) :
    Spells (cs.take k) t ∧ scan (cs.take k) = some (t, k) := by
  cases cs with
  | nil => cases h
  | cons c cs =>
    rw [scan] at h
    split at h
    case isTrue hs =>
      cases h
      have hall : (c :: cs.takeWhile isNamePart).all isNamePart := by
        rw [List.all_cons, isNamePart_of_isNameStart hs]
        exact List.all_takeWhile
      have hhead : (c :: cs.takeWhile isNamePart).head?.any isNameStart := by simpa using hs
      have htake : (c :: cs).take (c :: cs.takeWhile isNamePart).length =
          c :: cs.takeWhile isNamePart :=
        (List.prefix_iff_eq_take.mp ((List.prefix_cons_inj c).mpr (List.takeWhile_prefix _))).symm
      have hscan := scan_word (α := α) hhead hall .nil
      rw [List.append_nil] at hscan
      rw [htake]
      exact ⟨spells_ofWord hhead hall, hscan⟩
    case isFalse =>
      split at h
      case h_1 hm =>
        cases h
        exact ⟨spells_of_ofMark? hm, scan_mark hm⟩
      case h_2 =>
        obtain ⟨n, hn, h⟩ := Option.bind_eq_some_iff.mp h
        cases h
        have ha := Numeral.admitted_of_scan hn
        have hstart := List.prefix_iff_eq_take.mp (Numeral.toList_prefix_of_scan hn).1
        rw [← n.length_toList, ← hstart]
        exact ⟨.number ha, scan_numeral_alone ha⟩

-- The scanner finds a spelling that is all of a text, with the token that it is a spelling of if it
-- is not a name like any other.
theorem Spells.scan (h : Spells w t) :
    ∃ u, scan w = some (u, w.length) ∧ (t = u ∨ u.isReserved ∧ ∃ s, t = .name s) := by
  cases h with
  | number hn    => exact ⟨_, scan_numeral_alone hn, .inl rfl⟩
  | constant k   => cases k <;> exact ⟨_, rfl, .inl rfl⟩
  | elementary f => cases f <;> exact ⟨_, rfl, .inl rfl⟩
  | name hs hp =>
    have hscan := scan_word (α := α) hs hp .nil
    rw [List.append_nil] at hscan
    refine ⟨_, hscan, ?_⟩
    unfold ofWord
    split
    case h_1 => exact .inr ⟨rfl, _, rfl⟩
    case h_2 => exact .inr ⟨rfl, _, rfl⟩
    case h_3 => exact .inl rfl
  | operator op => cases op <;> exact ⟨_, rfl, .inl rfl⟩
  | opening     => exact ⟨_, rfl, .inl rfl⟩
  | closing     => exact ⟨_, rfl, .inl rfl⟩
  | comma       => exact ⟨_, rfl, .inl rfl⟩

-- `Longest cs w t` says that no rule of the language has a longer match at the start of `cs` than
-- `w`, and that `t` is what `w` spells. A name does not count where the same word is reserved.
structure Longest (cs w : List Char) (t : Token α) : Prop where
  begins    : w <+: cs
  spells    : Spells w t
  longest   : ∀ {v : List Char} {u : Token α}, v <+: cs → Spells v u → v.length ≤ w.length
  preferred : ∀ {u : Token α}, Spells w u → u = t ∨ t.isReserved ∧ ∃ s, u = .name s

theorem longest_of_scan (h : Token.scan cs = some (t, k)) : Longest cs (cs.take k) t := by
  have ⟨_, hk⟩ := length_of_scan h
  have ⟨hspells, htake⟩ := spells_of_scan h
  refine ⟨List.take_prefix k cs, hspells, fun hv hu => ?_, fun hu => ?_⟩
  case refine_1 =>
    obtain ⟨rest, rfl⟩ := hv
    have ⟨u, n, hn, hle⟩ := hu.shape.exists_scan rest
    cases hn.symm.trans h
    rwa [List.length_take_of_le hk]
  case refine_2 =>
    have ⟨s, hs, hor⟩ := hu.scan
    obtain ⟨rfl, _⟩ := Prod.mk.inj (Option.some.inj (hs.symm.trans htake))
    exact hor

-- There is no more than one longest match, and the scanner finds it.
theorem Longest.scan (h : Longest cs w t) : Token.scan cs = some (t, w.length) := by
  obtain ⟨rest, rfl⟩ := h.begins
  have ⟨u, k, hk, hle⟩ := h.spells.shape.exists_scan rest
  have hu := longest_of_scan hk
  have hlen := h.longest hu.begins hu.spells
  rw [List.length_take_of_le (length_of_scan hk).2] at hlen
  obtain rfl := Nat.le_antisymm hle hlen
  rw [List.take_left] at hu
  rcases hu.preferred h.spells with rfl | ⟨hr, s, rfl⟩
  case inl => exact hk
  case inr =>
    rcases h.preferred hu.spells with rfl | ⟨hr', _⟩
    case inl => exact hk
    case inr => cases hr'

-- A match stays the longest if something blank is put behind it.
theorem Longest.respaced (h : Longest (w ++ rest) w t) (hb : Lexeme.isBlank c) :
    Longest (w ++ c :: cs) w t := by
  refine ⟨List.prefix_append w _, h.spells, fun {v u} hv hu => ?_, h.preferred⟩
  rcases List.prefix_or_prefix_of_prefix hv (List.prefix_append w _) with hv' | ⟨ds, rfl⟩
  case inl => exact hv'.length_le
  case inr =>
    rw [List.prefix_append_right_inj] at hv
    cases ds with
    | nil       => simp
    | cons d ds =>
      obtain ⟨rfl, _⟩ := List.cons_prefix_cons.mp hv
      have hd := (hu.shape.plain (c := d) (by simp)).notBlank
      simp [hb] at hd

end Token

end InfixAlgebra
