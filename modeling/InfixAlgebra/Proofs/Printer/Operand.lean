import InfixAlgebra.Proofs.Printer.Spelling

namespace InfixAlgebra

namespace Expr

open Lexeme

variable {α : Type} [Scalar α] [NumberText α] {t a b : Expr α} {ts us : List (Token α)}
  {n : Bool} {text : String} {op : Operator}

structure Operand (p : Phrase) (text : String) (t : Expr α) (ts : List (Token α)) : Prop where
  scans   : ∀ {rest}, Token.Ends rest → Scans text.toList ts rest
  derives : Derives p t.depth ts t

def parenthesizedTokens (needed : Bool) (ts : List (Token α)) : List (Token α) :=
  if needed then .opening :: ts ++ [.closing] else ts

theorem ends_of_mem {c : Char} {cs : List Char} (h : c ∈ [' ', '(', ')']) :
    Token.Ends (c :: cs) := by
  rw [Token.Ends, HeadNot.cons_iff]
  simp only [List.mem_cons, List.not_mem_nil, or_false] at h
  rcases h with rfl | rfl | rfl <;> rfl

omit [Scalar α] in
theorem scans_parenthesized {rest : List Char}
    (h : ∀ {rest}, Token.Ends rest → Scans text.toList ts rest) (hr : Token.Ends rest) :
    Scans (parenthesized n text).toList (parenthesizedTokens n ts) rest := by
  cases n with
  | false => exact h hr
  | true  =>
    have hclosing : Scans [')'] [(.closing : Token α)] rest := .mark rfl .nil
    have htext : (parenthesized true text).toList = '(' :: (text.toList ++ [')']) := by
      simp [parenthesized]
    rw [htext]
    exact .mark rfl (Scans.append (h (ends_of_mem (by simp))) hclosing)

namespace Spelled

-- In parentheses an expression is a phrase of the strongest kind.
theorem operand_primary (h : t.Spelled ts) (hn : ¬n → t.precedence = 5) :
    Operand .primary (parenthesized n t.render) t.unsigned (parenthesizedTokens n ts) := by
  refine ⟨scans_parenthesized h.scans, ?_⟩
  cases n with
  | false => exact h.primary (hn (by decide))
  | true  => exact .parens h.additive

theorem operand_unary (h : t.Spelled ts) (hy : n → t.precedence < 3)
    (hn : ¬n → 3 ≤ t.precedence) :
    Operand .unary (parenthesized n t.render) t.unsigned (parenthesizedTokens n ts) := by
  refine ⟨scans_parenthesized h.scans, ?_⟩
  cases n with
  | false => exact h.unary (hn (by decide))
  | true  =>
    have hlt := hy rfl
    have ⟨n, hn, d⟩ := h.exists_additive (by omega) (by omega)
    exact (Derives.positive (.base (.parens d))).mono hn

theorem operand_multiplicative (h : t.Spelled ts) (hy : n → t.precedence < 3)
    (hn : ¬n → 2 ≤ t.precedence) :
    Operand .multiplicative (parenthesized n t.render) t.unsigned
      (parenthesizedTokens n ts) := by
  cases n with
  | false => exact ⟨scans_parenthesized h.scans, h.multiplicative (hn (by decide))⟩
  | true  =>
    have ⟨hs, hd⟩ := h.operand_unary hy (by simp)
    exact ⟨hs, .factor hd⟩

end Spelled

omit [Scalar α] in
theorem scans_binary {A B : String} {rest : List Char}
    (hA : ∀ {rest}, Token.Ends rest → Scans A.toList ts rest)
    (hB : ∀ {rest}, Token.Ends rest → Scans B.toList us rest) (hr : Token.Ends rest) :
    Scans (A ++ " " ++ op.symbol.toString ++ " " ++ B).toList (ts ++ .operator op :: us) rest := by
  have htext : (A ++ " " ++ op.symbol.toString ++ " " ++ B).toList =
      A.toList ++ ' ' :: op.symbol :: ' ' :: B.toList := by
    simp
  have hmark : Token.ofMark? op.symbol = some (.operator op : Token α) := by
    cases op <;> rfl
  rw [htext]
  exact (hA (ends_of_mem (by simp))).append (.blank rfl (.mark hmark (.blank rfl (hB hr))))

theorem spelled_number {x : α} (h : Displayed x) : ∃ ts, (number x).Spelled ts := by
  obtain ⟨n, hn, hx⟩ := h
  split at hx
  case isTrue hlt =>
    obtain ⟨htext, hval⟩ := hx
    refine ⟨[.operator .sub, .number (-x)], ?_, 2, ?_, ?_, ?_⟩
    · intro rest hr
      rw [render, htext, ← hval]
      exact .mark rfl (.numeral hn hr)
    · simp only [precedence, unsigned, hlt, if_true]
      exact .negation (.positive (.base (.number _)))
    · simp [unsigned, hlt, depth]
    · simp [precedence, hlt]
  case isFalse hlt =>
    obtain ⟨htext, hval⟩ := hx
    refine ⟨[.number (if x == 0 then 0 else x)], ?_, 0, ?_, ?_, ?_⟩
    · intro rest hr
      rw [render, htext, ← hval]
      exact .numeral hn hr
    · have hu : (number x).unsigned = number (if x == 0 then 0 else x) := by
        rw [unsigned, if_neg hlt]
        split <;> rfl
      rw [hu, precedence, if_neg hlt]
      exact .number _
    · exact Nat.zero_le _
    · intro _
      rw [unsigned, if_neg hlt]
      split <;> simp [depth]

theorem spelled_constant (c : Constant) : (constant c : Expr α).Spelled [.constant c] := by
  refine ⟨fun hr => ?_, 0, .constant c, Nat.zero_le _, fun _ => Nat.zero_lt_one⟩
  have hword : Token.ofWord c.name.toList = (.constant c : Token α) := by
    cases c <;> rfl
  rw [render, ← hword]
  refine Scans.word ?_ ?_ hr <;> (cases c <;> rfl)

omit [Scalar α] [NumberText α] in
-- No name of a constant or of a function is a single letter but one.
theorem ofWord_of_isVariableName {name : String} (h : isVariableName name)
    (he : name ≠ Constant.e.name) : Token.ofWord name.toList = (.name name : Token α) := by
  unfold isVariableName at h
  split at h
  case h_2 => cases h
  case h_1 c hc =>
    have hne : c ≠ 'e' := by
      rintro rfl
      exact he (String.toList_inj.mp hc)
    have hfind : Constant.all.find? (·.name.toList == name.toList) = none := by
      simp [Constant.all, Constant.name, hc, hne.symm]
    have hfind' : Elementary.all.find? (·.name.toList == name.toList) = none := by
      simp [Elementary.all, Elementary.name, hc]
    rw [Token.ofWord, hfind, hfind', String.ofList_toList]

theorem spelled_var {name : String} (h : isVariableName name) (he : name ≠ Constant.e.name) :
    (var name : Expr α).Spelled [.name name] := by
  refine ⟨fun hr => ?_, 0, .var h, Nat.zero_le _, fun _ => Nat.zero_lt_one⟩
  rw [render, ← ofWord_of_isVariableName h he]
  unfold isVariableName at h
  split at h
  case h_2 => cases h
  case h_1 c hc =>
    rw [hc]
    have hs : Token.isNameStart c := by
      simp [Token.isNameStart, Char.isAlpha, h]
    refine Scans.word (by simpa using hs) ?_ hr
    simpa using Token.isNamePart_of_isNameStart hs

theorem spelled_neg (h : a.Spelled ts) : ∃ ts, (neg a).Spelled ts := by
  have ⟨hs, hd⟩ := h.operand_unary (n := a.precedence < 3) (by simp) (by simp)
  refine ⟨_, ?_, a.unsigned.depth + 1, .negation hd, Nat.le_refl _, fun hne => absurd rfl hne⟩
  intro rest hr
  have htext : (neg a).render.toList =
      '-' :: (parenthesized (a.precedence < 3) a.render).toList := by
    simp [render]
  rw [htext]
  exact .mark rfl (hs hr)

theorem spelled_call (f : Elementary) (h : a.Spelled ts) : ∃ ts, (call f [a]).Spelled ts := by
  have hu : (call f [a]).unsigned = call f [a.unsigned] := by
    simp [unsigned, unsignedAll]
  refine ⟨.elementary f :: .opening :: ts ++ [.closing], ?_, a.unsigned.depth,
    hu ▸ .call f h.additive, ?_, ?_⟩
  · intro rest hr
    have htext : (call f [a]).render.toList =
        f.name.toList ++ (parenthesized true a.render).toList := by
      simp [render, renderAll, parenthesized]
    have hparens := scans_parenthesized (n := true) h.scans hr
    have hends : Token.Ends ((parenthesized true a.render).toList ++ rest) := by
      simpa [parenthesized] using ends_of_mem (by simp)
    have hword : Token.ofWord f.name.toList = (.elementary f : Token α) := by
      cases f <;> rfl
    have hname : Scans f.name.toList [(.elementary f : Token α)]
        ((parenthesized true a.render).toList ++ rest) := by
      rw [← hword]
      refine Scans.word ?_ ?_ hends <;> (cases f <;> rfl)
    rw [htext]
    exact hname.append hparens
  · simp [unsigned, unsignedAll, depth, depthOfAll]
  · simp [unsigned, unsignedAll, depth, depthOfAll]

theorem operand_additive (h : a.Spelled ts) (hn : n = false) :
    Operand .additive (parenthesized n a.render) a.unsigned (parenthesizedTokens n ts) :=
  hn ▸ ⟨h.scans, h.additive⟩

-- The operands of an operator stand one level below it.
theorem spelled_of_operands {p q : Phrase}
    (hA : Operand p (parenthesized (leftNeedsParens op a) a.render) a.unsigned ts)
    (hB : Operand q (parenthesized (rightNeedsParens op b) b.render) b.unsigned us)
    (hd : ∀ {n}, Derives p n ts a.unsigned → Derives q n us b.unsigned →
      Derives (.ofPrecedence op.precedence) n (ts ++ .operator op :: us)
        (.binary op a.unsigned b.unsigned)) :
    (binary op a b).Spelled (ts ++ .operator op :: us) := by
  refine ⟨scans_binary hA.scans hB.scans, max a.unsigned.depth b.unsigned.depth, ?_, ?_, ?_⟩
  · exact hd (hA.derives.mono (Nat.le_max_left ..)) (hB.derives.mono (Nat.le_max_right ..))
  · simp only [unsigned, depth]
    omega
  · intro _
    simp only [unsigned, depth]
    omega

theorem spelled_sum (ho : op = .add ∨ op = .sub) (ha : a.Spelled ts) (hb : b.Spelled us) :
    ∃ vs, (binary op a b).Spelled vs := by
  have ⟨hassoc, hop⟩ : op.isRightAssociative = false ∧ op.precedence = 1 := by
    rcases ho with rfl | rfl <;> decide
  have hl : leftNeedsParens op a = decide (a.precedence < 1) := by
    simp [leftNeedsParens, hassoc, hop]
  have hr : rightNeedsParens op b = decide (b.precedence ≤ 1) := by
    simp [rightNeedsParens, hassoc, hop]
  have hcases := a.precedence_cases
  have hA := operand_additive (n := leftNeedsParens op a) ha
    (by rw [hl, decide_eq_false_iff_not]; omega)
  have hB := hb.operand_multiplicative (n := rightNeedsParens op b)
    (by rw [hr, decide_eq_true_eq]; omega) (by rw [hr, decide_eq_true_eq]; omega)
  refine ⟨_, spelled_of_operands hA hB fun da db => ?_⟩
  rw [hop]
  exact .sum ho da db

theorem spelled_product (ho : op = .mul ∨ op = .div) (ha : a.Spelled ts) (hb : b.Spelled us) :
    ∃ vs, (binary op a b).Spelled vs := by
  have ⟨hassoc, hop⟩ : op.isRightAssociative = false ∧ op.precedence = 2 := by
    rcases ho with rfl | rfl <;> decide
  have hl : leftNeedsParens op a = decide (a.precedence < 2) := by
    simp [leftNeedsParens, hassoc, hop]
  have hr : rightNeedsParens op b = decide (b.precedence ≤ 2) := by
    simp [rightNeedsParens, hassoc, hop]
  have hA := ha.operand_multiplicative (n := leftNeedsParens op a)
    (by rw [hl, decide_eq_true_eq]; omega) (by rw [hl, decide_eq_true_eq]; omega)
  have hB := hb.operand_unary (n := rightNeedsParens op b)
    (by rw [hr, decide_eq_true_eq]; omega) (by rw [hr, decide_eq_true_eq]; omega)
  refine ⟨_, spelled_of_operands hA hB fun da db => ?_⟩
  rw [hop]
  exact .product ho da db

-- A negated exponent stands on its own.
theorem spelled_power (ha : a.Spelled ts) (hb : b.Spelled us) : ∃ vs, (pow a b).Spelled vs := by
  have hl : leftNeedsParens .pow a = decide (a.precedence ≤ 4) := rfl
  have hr : rightNeedsParens .pow b = decide (b.precedence < 3) := by
    have hcases := b.precedence_cases
    have hr : rightNeedsParens .pow b = (decide (b.precedence < 4) && b.precedence != 3) := rfl
    rw [hr, Bool.eq_iff_iff]
    simp only [Bool.and_eq_true, decide_eq_true_eq, bne_iff_ne]
    omega
  have hcases := a.precedence_cases
  have hA := ha.operand_primary (n := leftNeedsParens .pow a)
    (by rw [hl, decide_eq_true_eq]; omega)
  have hB := hb.operand_unary (n := rightNeedsParens .pow b)
    (by rw [hr, decide_eq_true_eq]; omega) (by rw [hr, decide_eq_true_eq]; omega)
  exact ⟨_, spelled_of_operands hA hB fun da db => .power da db⟩

theorem spelled_binary (op : Operator) (ha : a.Spelled ts) (hb : b.Spelled us) :
    ∃ vs, (binary op a b).Spelled vs := by
  cases op with
  | add => exact spelled_sum (.inl rfl) ha hb
  | sub => exact spelled_sum (.inr rfl) ha hb
  | mul => exact spelled_product (.inl rfl) ha hb
  | div => exact spelled_product (.inr rfl) ha hb
  | pow => exact spelled_power ha hb

-- The text of every tree of the right shape is read as a derivation of the tree.
theorem Spellable.exists_spelled (ht : t.Spellable) (hx : ∀ x ∈ t.numbers, Displayed x) :
    ∃ ts, t.Spelled ts := by
  induction ht with
  | number x   => exact spelled_number (hx x (by simp [numbers]))
  | constant c => exact ⟨_, spelled_constant c⟩
  | var h he   => exact ⟨_, spelled_var h he⟩
  | neg _ ih =>
    have ⟨ts, h⟩ := ih (by simpa [numbers] using hx)
    exact spelled_neg h
  | binary op _ _ iha ihb =>
    have ⟨ts, ha⟩ := iha fun x hm => hx x (by simp [numbers, hm])
    have ⟨us, hb⟩ := ihb fun x hm => hx x (by simp [numbers, hm])
    exact spelled_binary op ha hb
  | call f _ ih =>
    have ⟨ts, h⟩ := ih (by simpa [numbers, numbersOfAll] using hx)
    exact spelled_call f h

-- What is printed reads back, without the signs of numbers.
theorem Spellable.parse_render_eq {limit : Nat} (ht : t.Spellable)
    (hx : ∀ x ∈ t.numbers, Displayed x) (hl : t.unsigned.depth ≤ limit) :
    parse limit t.render = .ok t.unsigned := by
  have ⟨ts, h⟩ := ht.exists_spelled hx
  have ⟨ss, hss, hts⟩ := Lexing.tokens?_of_scans (h.scans HeadNot.nil)
  have hd := h.additive.mono hl
  rw [← hts] at hd
  rw [parse_eq_of_derives hss hd, if_pos hl]

end Expr

end InfixAlgebra
