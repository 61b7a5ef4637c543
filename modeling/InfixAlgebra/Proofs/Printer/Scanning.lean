import InfixAlgebra.Proofs.Decimal.Numeral
import InfixAlgebra.Token

namespace InfixAlgebra

namespace Token

variable {α : Type}

def continues (c : Char) : Bool :=
  isNamePart c || c == '.'

abbrev Ends (cs : List Char) : Prop :=
  HeadNot continues cs

theorem isNamePart_of_isNameStart {c : Char} (h : isNameStart c) : isNamePart c := by
  simp only [isNameStart, isNamePart, Char.isAlphanum, Bool.or_eq_true] at h ⊢
  exact h.imp_left .inl

-- No mark looks like the start of a word or like white space.
theorem of_ofMark? {c : Char} {t : Token α} (h : ofMark? c = some t) :
    isNameStart c = false ∧ Lexeme.isBlank c = false := by
  unfold ofMark? at h
  split at h
  case h_9 => cases h
  all_goals decide

theorem of_isDigit {c : Char} (h : c.isDigit) :
    isNameStart c = false ∧ Lexeme.isBlank c = false ∧ ofMark? (α := α) c = none := by
  have ⟨hs, hb⟩ : isNameStart c = false ∧ Lexeme.isBlank c = false := of_decide_eq_true
    (@InfixAlgebra.of_isDigit
      (fun d => decide (isNameStart d = false ∧ Lexeme.isBlank d = false)) c rfl h)
  refine ⟨hs, hb, ?_⟩
  unfold ofMark?
  split
  case h_9 => rfl
  all_goals cases h

theorem continues_of_numeral {c : Char} (h : Numeral.continues c) : continues c := by
  simp only [Numeral.continues, Bool.or_eq_true, beq_iff_eq] at h
  simp only [continues, isNamePart, Char.isAlphanum, Bool.or_eq_true, beq_iff_eq]
  rcases h with ((h | h) | h) | h
  case inl.inl.inl => exact .inl (.inl (.inr h))
  case inl.inl.inr => exact .inr h
  all_goals
    subst h
    decide

-- What is found where a mark, a word or a numeral stands.

variable [NumberText α] {c : Char} {cs rest : List Char} {t : Token α}

theorem scan_mark (h : ofMark? c = some t) : scan (c :: cs) = some (t, 1) := by
  rw [scan, (of_ofMark? h).1, h]
  rfl

theorem scan_word (hs : cs.head?.any isNameStart) (hp : cs.all isNamePart)
    (hr : HeadNot isNamePart rest) : scan (cs ++ rest) = some ((ofWord cs : Token α), cs.length) := by
  cases cs with
  | nil       => cases hs
  | cons c cs =>
    have hp : ∀ d ∈ cs, isNamePart d :=
      fun d hd => List.all_eq_true.mp hp d (List.mem_cons_of_mem _ hd)
    rw [List.cons_append, scan, if_pos (by simpa using hs), HeadNot.takeWhile_append hp hr]

-- The scanner of tokens leaves it to the scanner of numerals what numeral begins a text.
theorem scan_of_numeral {n m : Numeral} (hn : n.Admitted)
    (hm : Numeral.scan (n.toList ++ rest) = some m) :
    scan (n.toList ++ rest) =
      some ((number (NumberText.ofDecimal m.decimal) : Token α), m.toList.length) := by
  have ⟨c, cs, hcs, hc⟩ := hn.exists_cons
  have ⟨hs, hmark⟩ : isNameStart c = false ∧ ofMark? (α := α) c = none := by
    rcases hc with hc | rfl
    case inl =>
      have ⟨hs, _, hmark⟩ := of_isDigit (α := α) hc
      exact ⟨hs, hmark⟩
    case inr => exact ⟨by decide, rfl⟩
  rw [hcs, List.cons_append] at hm ⊢
  rw [scan, hs, hmark, m.length_toList]
  simp [hm]

theorem scan_numeral {n : Numeral} (h : n.WellFormed) (hr : Ends rest) :
    scan (n.toList ++ rest) =
      some ((number (NumberText.ofDecimal n.decimal) : Token α), n.toList.length) :=
  scan_of_numeral h.admitted
    (Numeral.scan_toList_append h (hr.mono fun _ => continues_of_numeral))

end Token

namespace Lexeme

variable {α : Type} [NumberText α] {cs ds rest : List Char} {ts us : List (Token α)} {c : Char}
  {t : Token α}

-- `Scans cs ts rest` says that a text is read as the tokens `ts` where `rest` follows, and that
-- `rest` is then read as a text of its own, wherever that is.
def Scans (cs : List Char) (ts : List (Token α)) (rest : List Char) : Prop :=
  ∀ p, ∃ (q : Nat) (ss : List (Spanned α)), ss.map (·.token) = ts ∧
    scanFrom p 0 (cs ++ rest) = ss.map token ++ scanFrom q 0 rest

theorem scanFrom_append (p : Nat) :
    ∃ q, scanFrom (α := α) p ds.length (ds ++ rest) = scanFrom q 0 rest := by
  induction ds generalizing p with
  | nil         => exact ⟨p, rfl⟩
  | cons d ds h => exact h (p + d.utf8Size)

namespace Scans

theorem nil : Scans (α := α) [] [] rest :=
  fun p => ⟨p, [], rfl, rfl⟩

theorem append (h₁ : Scans cs ts (ds ++ rest)) (h₂ : Scans ds us rest) :
    Scans (cs ++ ds) (ts ++ us) rest := by
  intro p
  have ⟨q, ss, hss, hq⟩ := h₁ p
  have ⟨r, ss', hss', hr⟩ := h₂ q
  refine ⟨r, ss ++ ss', by simp [hss, hss'], ?_⟩
  rw [List.append_assoc, hq, hr, List.map_append, List.append_assoc]

theorem blank (h : isBlank c) (hs : Scans cs ts rest) : Scans (c :: cs) ts rest := by
  intro p
  have ⟨q, ss, hss, hq⟩ := hs (p + c.utf8Size)
  refine ⟨q, ss, hss, ?_⟩
  simpa [scanFrom, h] using hq

-- A token stands where the scanner finds it.
theorem single (hb : isBlank c = false)
    (hs : Token.scan (c :: cs ++ rest) = some (t, cs.length + 1)) : Scans (c :: cs) [t] rest := by
  intro p
  have ⟨q, hq⟩ := @scanFrom_append α _ cs rest (p + c.utf8Size)
  refine ⟨q, [⟨t, p, p + (cs.length + 1)⟩], rfl, ?_⟩
  rw [List.cons_append] at hs
  simp [scanFrom, hb, hs, hq]

theorem mark (h : Token.ofMark? c = some t) (hs : Scans cs ts rest) :
    Scans (c :: cs) (t :: ts) rest := by
  have hc : Scans [c] [t] (cs ++ rest) := single (Token.of_ofMark? h).2 (Token.scan_mark h)
  exact hc.append hs

theorem word (hs : cs.head?.any Token.isNameStart) (hp : cs.all Token.isNamePart)
    (hr : Token.Ends rest) : Scans (α := α) cs [Token.ofWord cs] rest := by
  have hr' : HeadNot Token.isNamePart rest := hr.mono fun d hd => by simp [Token.continues, hd]
  have hscan := Token.scan_word (α := α) hs hp hr'
  cases cs with
  | nil       => cases hs
  | cons c cs =>
    replace hs : Token.isNameStart c := by simpa using hs
    have hb : isBlank c = false := by
      cases hb : isBlank c with
      | false => rfl
      | true  =>
        simp only [isBlank, Bool.or_eq_true, beq_iff_eq] at hb
        rcases hb with ((rfl | rfl) | rfl) | rfl <;> cases hs
    exact single hb hscan

theorem numeral {n : Numeral} (h : n.WellFormed) (hr : Token.Ends rest) :
    Scans (α := α) n.toList [.number (NumberText.ofDecimal n.decimal)] rest := by
  have ⟨c, cs, hcs, hc⟩ := h.exists_cons
  have hscan := Token.scan_numeral (α := α) h hr
  rw [hcs] at hscan ⊢
  exact single (Token.of_isDigit (α := α) hc).2.1 hscan

end Scans

end Lexeme

end InfixAlgebra
