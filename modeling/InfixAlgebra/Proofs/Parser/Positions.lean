import InfixAlgebra.Proofs.Parser.Outcome

namespace InfixAlgebra

open String (utf8Len)

namespace Numeral

variable {cs : List Char} {n : Numeral} {p : Power}

theorem toList_prefix_of_scanPower (h : scanPower cs = some p) : p.toList <+: cs := by
  have hending {l s cs p} (h : scanPower.ending l s cs = some p) :
      p.letter = l ∧ p.sign = s ∧ p.digits <+: cs := by
    unfold scanPower.ending at h
    split at h
    case h_1 => cases h
    case h_2 =>
      cases h
      exact ⟨rfl, rfl, List.takeWhile_prefix _⟩
  have hsigned {l cs} (h : scanPower.signed l cs = some p) : p.toList <+: l :: cs := by
    unfold scanPower.signed at h
    split at h
    all_goals
      have ⟨hl, hs, hd⟩ := hending h
      simpa [Power.toList, hl, hs] using hd
  unfold scanPower at h
  split at h
  case h_1 => exact hsigned h
  case h_2 => exact hsigned h
  case h_3 => cases h

theorem elim_toList_prefix_of_scanPower (cs : List Char) :
    (scanPower cs).elim [] Power.toList <+: cs := by
  cases h : scanPower cs with
  | none   => exact List.nil_prefix
  | some p => exact toList_prefix_of_scanPower h

theorem digits_append_prefix {ws ds us : List Char} (hw : cs.takeWhile Char.isDigit = ws)
    (hd : cs.dropWhile Char.isDigit = ds) (h : us <+: ds) : ws ++ us <+: cs := by
  rw [← @List.takeWhile_append_dropWhile _ Char.isDigit cs, hw, hd]
  exact (List.prefix_append_right_inj ws).mpr h

-- A numeral begins the text in which it is found, and has at least one character.
theorem toList_prefix_of_scan (h : scan cs = some n) : n.toList <+: cs ∧ n.toList ≠ [] := by
  have hpower (cs : List Char) : cs.takeWhile Char.isDigit ++
      (scanPower (cs.dropWhile Char.isDigit)).elim [] Power.toList <+: cs :=
    digits_append_prefix rfl rfl (elim_toList_prefix_of_scanPower _)
  unfold scan at h
  split at h
  case h_1 rest hw hd =>
    split at h
    case h_1 => cases h
    case h_2 =>
      cases h
      have hcs := digits_append_prefix hw hd ((List.prefix_cons_inj '.').mpr (hpower rest))
      exact ⟨by simpa [toList] using hcs, by simp [toList]⟩
  case h_2 => cases h
  case h_3 rest hd hw =>
    cases h
    have hcs := digits_append_prefix rfl hd ((List.prefix_cons_inj '.').mpr (hpower rest))
    exact ⟨by simpa [toList] using hcs, by simp [toList]⟩
  case h_4 hw _ _ =>
    cases h
    have hcs := hpower cs
    exact ⟨by simpa [toList] using hcs, fun hnil => hw (List.append_eq_nil_iff.mp
      (List.append_eq_nil_iff.mp hnil).1).1⟩

end Numeral

variable {α : Type}

theorem length_le_utf8Len (cs : List Char) : cs.length ≤ utf8Len cs := by
  induction cs with
  | nil => exact Nat.le_refl 0
  | cons c cs ih =>
    have hc := c.utf8Size_pos
    simp only [String.utf8Len_cons, List.length_cons]
    omega

-- A token takes at least one character, and no more than there are.
theorem Token.length_of_scan [NumberText α] {cs : List Char} {t : Token α} {n : Nat}
    (h : scan cs = some (t, n)) : 0 < n ∧ n ≤ cs.length := by
  cases cs with
  | nil => cases h
  | cons c cs =>
    rw [scan] at h
    split at h
    case isTrue =>
      cases h
      have hle := (List.takeWhile_prefix (l := cs) isNamePart).length_le
      exact ⟨Nat.succ_pos _, Nat.succ_le_succ hle⟩
    case isFalse =>
      split at h
      case h_1 =>
        cases h
        exact ⟨Nat.one_pos, Nat.succ_le_succ (Nat.zero_le _)⟩
      case h_2 =>
        obtain ⟨m, hm, h⟩ := Option.bind_eq_some_iff.mp h
        cases h
        have ⟨hp, hne⟩ := Numeral.toList_prefix_of_scan hm
        rw [← Numeral.length_toList]
        exact ⟨List.length_pos_iff.mpr hne, hp.length_le⟩

namespace Lexeme

def start : Lexeme α → Nat
  | token t   => t.start
  | stray k _ => k

def stop : Lexeme α → Nat
  | token t   => t.stop
  | stray k c => k + c.utf8Size

variable [NumberText α]

theorem scanFrom_bounds {position pending : Nat} {cs : List Char} {l : Lexeme α}
    (h : l ∈ scanFrom position pending cs) :
    position + utf8Len (cs.take pending) ≤ l.start ∧ l.start < l.stop ∧
      l.stop ≤ position + utf8Len cs := by
  fun_induction scanFrom (α := α) position pending cs with
  | case1 => cases h
  | case2 position n c cs ih =>
    have hrest := ih h
    simp only [List.take_succ_cons, String.utf8Len_cons]
    omega
  | case3 position c cs next hb ih =>
    have hrest := ih h
    simp only [List.take_zero, String.utf8Len_nil, String.utf8Len_cons] at hrest ⊢
    omega
  | case4 position c cs next hb t n hs ih =>
    have ⟨hpos, hle⟩ := Token.length_of_scan hs
    have hbytes := length_le_utf8Len (cs.take (n - 1))
    have hsplit := String.utf8Len_append (cs.take (n - 1)) (cs.drop (n - 1))
    have hc := c.utf8Size_pos
    simp only [List.length_take, List.length_cons, List.take_append_drop] at hbytes hle hsplit
    simp only [List.take_zero, String.utf8Len_nil, String.utf8Len_cons]
    rcases List.mem_cons.mp h with rfl | h
    case inl =>
      simp only [start, stop]
      omega
    case inr =>
      have hrest := ih h
      omega
  | case5 position c cs next hb hs ih =>
    have hc := c.utf8Size_pos
    simp only [List.take_zero, String.utf8Len_nil, String.utf8Len_cons]
    rcases List.mem_cons.mp h with rfl | h
    case inl =>
      simp only [start, stop]
      omega
    case inr =>
      have hrest := ih h
      omega

-- Lexemes stand one after another.
theorem pairwise_scanFrom (position pending : Nat) (cs : List Char) :
    (scanFrom (α := α) position pending cs).Pairwise (·.stop ≤ ·.start) := by
  fun_induction scanFrom (α := α) position pending cs with
  | case1 => exact .nil
  | case2 position n c cs ih => exact ih
  | case3 position c cs next hb ih => exact ih
  | case4 position c cs next hb t n hs ih =>
    refine .cons (fun l hl => ?_) ih
    have hrest := (scanFrom_bounds hl).1
    have ⟨hpos, hle⟩ := Token.length_of_scan hs
    have hbytes := length_le_utf8Len (cs.take (n - 1))
    have hc := c.utf8Size_pos
    simp only [List.length_take, List.length_cons] at hbytes hle
    show position + n ≤ l.start
    omega
  | case5 position c cs next hb hs ih =>
    refine .cons (fun l hl => ?_) ih
    have hrest := (scanFrom_bounds hl).1
    rwa [List.take_zero, String.utf8Len_nil] at hrest

-- A stray character is not blank, and no token begins with it.
theorem exists_of_stray_mem_scanFrom {position pending k : Nat} {x : Char} {cs : List Char}
    (h : stray (α := α) k x ∈ scanFrom position pending cs) :
    ∃ pre post, cs = pre ++ x :: post ∧ k = position + utf8Len pre ∧ isBlank x = false ∧
      Token.scan (α := α) (x :: post) = none := by
  fun_induction scanFrom (α := α) position pending cs with
  | case1 => cases h
  | case2 position n c cs ih =>
    obtain ⟨pre, post, rfl, rfl, hx⟩ := ih h
    exact ⟨c :: pre, post, rfl, by simp; omega, hx⟩
  | case3 position c cs next hb ih =>
    obtain ⟨pre, post, rfl, rfl, hx⟩ := ih h
    exact ⟨c :: pre, post, rfl, by simp [next]; omega, hx⟩
  | case4 position c cs next hb t n hs ih =>
    obtain ⟨pre, post, rfl, rfl, hx⟩ := ih (by simpa using h)
    exact ⟨c :: pre, post, rfl, by simp [next]; omega, hx⟩
  | case5 position c cs next hb hs ih =>
    rcases List.mem_cons.mp h with h | h
    case inl =>
      cases h
      exact ⟨[], cs, rfl, rfl, by simpa using hb, hs⟩
    case inr =>
      obtain ⟨pre, post, rfl, rfl, hx⟩ := ih h
      exact ⟨c :: pre, post, rfl, by simp [next]; omega, hx⟩

end Lexeme

namespace Lexing

variable {l : Lexing α} {stop k : Nat} {c : Char}

def before (l : Lexing α) (k : Nat) : List (Token α) :=
  (l.tokens.filter (·.stop ≤ k)).map (·.token)

def at? (l : Lexing α) (k : Nat) : Option (Token α) :=
  (l.tokens.find? (·.start = k)).map (·.token)

theorem ofLexemes_prefix (stop : Nat) (ls : List (Lexeme α)) :
    (ofLexemes stop ls).tokens.map .token <+: ls := by
  induction ls with
  | nil => exact List.nil_prefix
  | cons l ls ih =>
    cases l with
    | stray k c => exact List.nil_prefix
    | token t   => exact (List.prefix_cons_inj _).mpr ih

theorem eq_of_ofLexemes_finished {ls : List (Lexeme α)}
    (h : (ofLexemes stop ls).ending = .finished k) : k = stop := by
  induction ls with
  | nil => exact (Ending.finished.inj h).symm
  | cons l ls ih =>
    cases l with
    | stray k c => cases h
    | token t   => exact ih h

theorem exists_of_ofLexemes_stray {ls : List (Lexeme α)}
    (h : (ofLexemes stop ls).ending = .stray k c) :
    ∃ later, ls = (ofLexemes stop ls).tokens.map .token ++ .stray k c :: later := by
  induction ls with
  | nil => cases h
  | cons l ls ih =>
    cases l with
    | stray k c =>
      cases h
      exact ⟨ls, rfl⟩
    | token t =>
      have ⟨later, hl⟩ := ih h
      exact ⟨later, congrArg (.token t :: ·) hl⟩

structure Ordered (l : Lexing α) : Prop where
  pairwise : l.tokens.Pairwise (·.stop ≤ ·.start)
  nonempty : ∀ t ∈ l.tokens, t.start < t.stop
  bounded  : ∀ t ∈ l.tokens, t.stop ≤ l.ending.position

theorem ordered_ofText [NumberText α] (text : String) : (ofText (α := α) text).Ordered := by
  have hstart := ofLexemes_prefix text.utf8ByteSize (Lexeme.scan (α := α) text)
  have hpairwise := Lexeme.pairwise_scanFrom (α := α) 0 0 text.toList
  have hbounds {t : Spanned α} (ht : t ∈ (ofText text).tokens) :=
    Lexeme.scanFrom_bounds (hstart.subset (List.mem_map_of_mem (f := Lexeme.token) ht))
  refine ⟨?_, fun t ht => (hbounds ht).2.1, fun t ht => ?_⟩
  · exact List.pairwise_map.mp (hpairwise.sublist hstart.sublist)
  · cases he : (ofText (α := α) text).ending with
    | finished k =>
      have hk := eq_of_ofLexemes_finished he
      have hsize := String.utf8ByteSize_ofList text.toList
      have hstop := (hbounds ht).2.2
      rw [String.ofList_toList] at hsize
      rw [Ending.position, hk, hsize]
      rwa [Nat.zero_add] at hstop
    | stray k c =>
      have ⟨later, hl⟩ := exists_of_ofLexemes_stray he
      rw [← Lexeme.scan, hl] at hpairwise
      have hcross := (List.pairwise_append.mp hpairwise).2.2
      exact hcross _ (List.mem_map_of_mem ht) _ List.mem_cons_self

-- The tokens in front of those that are left end before the place where these begin.
theorem Ordered.before_place (h : l.Ordered) {ss rest : List (Spanned α)}
    (hts : l.tokens = ss ++ rest) :
    l.before (Parser.place l.ending rest) = ss.map (·.token) ∧
      l.at? (Parser.place l.ending rest) = Parser.next rest := by
  have ⟨hpairwise, hnonempty, hbounded⟩ := h
  rw [hts] at hpairwise hnonempty hbounded
  have ⟨_, hrest, hcross⟩ := List.pairwise_append.mp hpairwise
  have hstop (k : Nat) (hk : ∀ s ∈ ss, s.stop ≤ k) :
      ss.filter (·.stop ≤ k) = ss ∧ ss.find? (·.start = k) = none := by
    refine ⟨List.filter_eq_self.mpr fun s hs => decide_eq_true (hk s hs), ?_⟩
    refine List.find?_eq_none.mpr fun s hs => ?_
    have hlt := hnonempty s (List.mem_append_left _ hs)
    have hle := hk s hs
    simp
    omega
  cases rest with
  | nil =>
    have ⟨hf, hn⟩ := hstop l.ending.position (by simpa using hbounded)
    show l.before l.ending.position = _ ∧ l.at? l.ending.position = none
    simp [before, at?, hts, hf, hn]
  | cons s rest =>
    have ⟨hf, hn⟩ := hstop s.start fun t ht => hcross t ht s List.mem_cons_self
    have hs := hnonempty s (by simp)
    have hlater : rest.filter (·.stop ≤ s.start) = [] := by
      refine List.filter_eq_nil_iff.mpr fun t ht => ?_
      have hst := (List.pairwise_cons.mp hrest).1 t ht
      have htt := hnonempty t (by simp [ht])
      simp
      omega
    show l.before s.start = _ ∧ l.at? s.start = some s.token
    simp [before, at?, hts, hf, hn, hlater, Nat.not_le.mpr hs]

end Lexing

end InfixAlgebra
