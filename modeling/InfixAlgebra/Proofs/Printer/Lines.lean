import InfixAlgebra.Proofs.Printer.Outline

namespace InfixAlgebra

-- Numbers are displayed as numerals, no two of them alike, with a minus in front of the negative
-- ones.
structure DistinctLiterals (α : Type) [Scalar α] [NumberText α] : Prop where
  numeral (x : α) : ∃ n : Numeral, n.WellFormed ∧
    (NumberText.display x).toList = if Scalar.lt x 0 then '-' :: n.toList else n.toList
  inj {x y : α} : NumberText.display x = NumberText.display y → x = y

-- What may follow an expression that stands on its own, and what may follow an operand.

abbrev Closed (cs : List Char) : Prop :=
  HeadNot (fun c => !(c == ')' || c == ',')) cs

abbrev Parted (cs : List Char) : Prop :=
  HeadNot (fun c => !(c == ' ' || c == ')' || c == ',')) cs

theorem Closed.parted {cs : List Char} (h : Closed cs) : Parted cs :=
  h.mono fun c hc => by
    simp only [Bool.not_eq_true', Bool.or_eq_false_iff] at hc ⊢
    exact ⟨hc.1.2, hc.2⟩

theorem Parted.ends {cs : List Char} (h : Parted cs) : Token.Ends cs :=
  h.mono fun c hc => by
    by_contra hne
    simp only [Bool.not_eq_true', Bool.not_eq_false, Bool.or_eq_true, beq_iff_eq] at hne
    rcases hne with (rfl | rfl) | rfl <;> cases hc

theorem Operator.eq_of_symbol {op op' : Operator} (h : op.symbol = op'.symbol) : op = op' := by
  cases op <;> cases op' <;> first | rfl | cases h

theorem Token.Ends.headNot_isNamePart {cs : List Char} (h : Token.Ends cs) :
    HeadNot Token.isNamePart cs :=
  h.mono fun c hc => by simp [Token.continues, hc]

namespace Expr

variable {α : Type}

-- Expressions without negations that would look like negative numbers, and with names that are read
-- as such. No number is raised to a number either, where simplification has to stay among them.
inductive Tidy : Expr α → Prop
  | number (x : α) : Tidy (.number x)
  | constant (c : Constant) : Tidy (.constant c)
  | var {name : String} : isVariableName name → name ≠ Constant.e.name → Tidy (.var name)
  | neg {a : Expr α} : a.number? = none → Tidy a → Tidy (.neg a)
  | binary {op : Operator} {a b : Expr α} :
    (op = .pow → a.number? = none ∨ b.number? = none) → Tidy a → Tidy b → Tidy (.binary op a b)
  | call {f : Elementary} {args : List (Expr α)} : (∀ a ∈ args, Tidy a) → Tidy (.call f args)

end Expr

variable {α : Type} [Scalar α] [NumberText α]

namespace Primary

variable {p q : Primary α} {r r' : List Char}

-- The text of a primary is its first token, and what stands in parentheses.

def word : Primary α → List Char
  | numeral text => text
  | constant c   => c.name.toList
  | var name     => name.toList
  | call f _     => f.name.toList
  | parens _     => ['(']

def enclosure : Primary α → List Char
  | numeral _ | constant _ | var _ => []
  | call _ args                    => '(' :: (Expr.renderAll args).toList ++ [')']
  | parens t                       => t.render.toList ++ [')']

def text (p : Primary α) : List Char :=
  p.word ++ p.enclosure

theorem enclosure_call (f : Elementary) (args : List (Expr α)) :
    (call f args).enclosure = '(' :: (Expr.renderAll args).toList ++ [')'] :=
  rfl

theorem enclosure_parens (t : Expr α) : (parens t).enclosure = t.render.toList ++ [')'] :=
  rfl

omit [Scalar α] [NumberText α] in
inductive Proper : Primary α → Prop
  | numeral {n : Numeral} : n.WellFormed → Proper (.numeral n.toList)
  | constant (c : Constant) : Proper (.constant c)
  | var {name : String} : isVariableName name → name ≠ Constant.e.name → Proper (.var name)
  | call {f : Elementary} {args : List (Expr α)} :
    (∀ a ∈ args, a.Tidy) → Proper (.call f args)
  | parens {t : Expr α} : t.Tidy → Proper (.parens t)

inductive Begins : Primary α → Token α → Prop
  | numeral {text : List Char} {x : α} : Begins (.numeral text) (.number x)
  | constant {c : Constant} : Begins (.constant c) (.constant c)
  | var {name : String} : Begins (.var name) (.name name)
  | call {f : Elementary} {args : List (Expr α)} : Begins (.call f args) (.elementary f)
  | parens {t : Expr α} : Begins (.parens t) .opening

theorem exists_scan (hp : p.Proper) (hr : Parted r) :
    ∃ t, Token.scan (p.text ++ r) = some (t, p.word.length) ∧ p.Begins t := by
  cases hp with
  | numeral hn =>
    rw [text, enclosure, List.append_nil]
    exact ⟨_, Token.scan_numeral hn hr.ends, .numeral⟩
  | constant c =>
    have hword : Token.ofWord c.name.toList = (.constant c : Token α) := by cases c <;> rfl
    rw [text, enclosure, List.append_nil, word]
    refine ⟨_, Token.scan_word ?_ ?_ hr.ends.headNot_isNamePart, hword ▸ .constant⟩
    all_goals cases c <;> rfl
  | @var name hname he =>
    have hword := Expr.ofWord_of_isVariableName (α := α) hname he
    rw [text, enclosure, List.append_nil, word]
    unfold isVariableName at hname
    split at hname
    case h_2 => cases hname
    case h_1 c hc =>
      have hs : Token.isNameStart c := by simp [Token.isNameStart, Char.isAlpha, hname]
      refine ⟨_, Token.scan_word ?_ ?_ hr.ends.headNot_isNamePart, hword ▸ .var⟩
      · simpa [hc] using hs
      · simpa [hc] using Token.isNamePart_of_isNameStart hs
  | @call f args _ =>
    have hword : Token.ofWord f.name.toList = (.elementary f : Token α) := by cases f <;> rfl
    rw [text, List.append_assoc]
    refine ⟨_, Token.scan_word ?_ ?_ (HeadNot.cons_iff.mpr rfl), hword ▸ .call⟩
    all_goals cases f <;> rfl
  | parens => exact ⟨_, Token.scan_mark rfl, .parens⟩

-- The first tokens of two primaries with the same text are the same.
theorem eq_of_text (hp : p.Proper) (hq : q.Proper) (hr : Parted r) (hr' : Parted r')
    (h : p.text ++ r = q.text ++ r') :
    (∃ t, p.Begins t ∧ q.Begins t) ∧ p.word = q.word ∧ p.enclosure ++ r = q.enclosure ++ r' := by
  have ⟨t, ht, hpt⟩ := exists_scan hp hr
  have ⟨t', ht', hqt⟩ := exists_scan hq hr'
  rw [h, ht', Option.some.injEq, Prod.mk.injEq] at ht
  rw [text, text, List.append_assoc, List.append_assoc] at h
  have ⟨hword, hrest⟩ := List.append_inj h ht.2.symm
  exact ⟨⟨t, hpt, ht.1 ▸ hqt⟩, hword, hrest⟩

theorem Proper.exists_cons (hp : p.Proper) : ∃ c cs, p.text = c :: cs ∧ c ≠ '-' ∧ c ≠ ')' := by
  cases hp with
  | numeral hn =>
    have ⟨c, cs, hcs, hc⟩ := hn.exists_cons
    rw [text, word, hcs]
    refine ⟨c, _, rfl, ?_, ?_⟩ <;> (rintro rfl; cases hc)
  | constant c => cases c <;> exact ⟨_, _, rfl, by decide, by decide⟩
  | @var name hname =>
    unfold isVariableName at hname
    split at hname
    case h_2 => cases hname
    case h_1 c hc =>
      rw [text, word, hc]
      refine ⟨c, _, rfl, ?_, ?_⟩ <;> (rintro rfl; cases hname)
  | @call f args => cases f <;> exact ⟨_, _, rfl, by decide, by decide⟩
  | parens => exact ⟨_, _, rfl, by decide, by decide⟩

end Primary

-- `Spells P ts cs` says that the text of a line of tokens is `cs` and that its primaries are all as
-- `P` says. Only operators between operands stand apart.
inductive Spells (P : Primary α → Prop) : List (Token (Primary α)) → List Char → Prop
  | minus {ts : List (Token (Primary α))} {cs : List Char} :
    Spells P ts cs → Spells P (.operator .sub :: ts) ('-' :: cs)
  | last {p : Primary α} : P p → Spells P [.number p] p.text
  | next {p : Primary α} {op : Operator} {ts : List (Token (Primary α))} {cs : List Char} :
    P p → Spells P ts cs →
    Spells P (.number p :: .operator op :: ts) (p.text ++ ' ' :: op.symbol :: ' ' :: cs)

namespace Spells

variable {P : Primary α → Prop} {ts us : List (Token (Primary α))} {cs ds r r' : List Char}
  {op : Operator} {a : Expr α}

theorem append (h : Spells P ts cs) (h' : Spells P us ds) :
    Spells P (ts ++ .operator op :: us) (cs ++ ' ' :: op.symbol :: ' ' :: ds) := by
  induction h with
  | minus _ ih   => exact .minus ih
  | last hp      => exact .next hp h'
  | next hp _ ih =>
    rw [List.append_assoc]
    exact .next hp ih

theorem parenthesized {n : Bool} (h : Spells P a.outline.outlineTokens a.render.toList)
    (hp : P (.parens a)) :
    Spells P (Expr.enclosed n a a.outline).outlineTokens (Expr.parenthesized n a.render).toList := by
  cases n with
  | false => exact h
  | true  =>
    have htext : (Expr.parenthesized true a.render).toList = (Primary.parens a).text := by
      simp [Expr.parenthesized, Primary.text, Primary.word, Primary.enclosure]
    rw [htext]
    exact .last hp

theorem exists_cons (h : Spells Primary.Proper ts cs) : ∃ c ds, cs = c :: ds ∧ c ≠ ')' := by
  cases h with
  | minus _   => exact ⟨_, _, rfl, by decide⟩
  | last hp   =>
    have ⟨c, ds, hcs, _, hc⟩ := hp.exists_cons
    exact ⟨c, ds, hcs, hc⟩
  | next hp _ =>
    have ⟨c, ds, hcs, _, hc⟩ := hp.exists_cons
    exact ⟨c, _, by rw [hcs]; rfl, hc⟩

end Spells

structure Primary.Told (p : Primary α) : Prop where
  proper : p.Proper
  unique : ∀ {q r r'}, q.Proper → Parted r → Parted r' → p.text ++ r = q.text ++ r' →
    p = q ∧ r = r'

namespace Spells

variable {ts us : List (Token (Primary α))} {cs ds r r' : List Char}

theorem parted_operator {op : Operator} : Parted (' ' :: op.symbol :: ' ' :: cs) :=
  HeadNot.cons_iff.mpr rfl

-- No line is the beginning of another one.
theorem unique (h : Spells Primary.Told ts cs) (h' : Spells Primary.Proper us ds) (hr : Closed r)
    (hr' : Closed r') (heq : cs ++ r = ds ++ r') : ts = us ∧ r = r' := by
  have hminus {p : Primary α} {s cs : List Char} (hp : p.Proper) : '-' :: cs ≠ p.text ++ s := by
    have ⟨c, cs', hcs, hc, _⟩ := hp.exists_cons
    rw [hcs]
    exact fun h => hc (List.cons.inj h).1.symm
  have hblank {s cs : List Char} (hs : Closed s) : s ≠ ' ' :: cs := by
    rintro rfl
    cases HeadNot.cons_iff.mp hs
  induction h generalizing us ds with
  | minus _ ih =>
    cases h' with
    | minus h' =>
      have ⟨hts, hrr⟩ := ih h' (List.cons.inj heq).2
      exact ⟨hts ▸ rfl, hrr⟩
    | last hq   => exact absurd heq (hminus hq)
    | next hq _ => exact absurd (heq.trans (List.append_assoc ..)) (hminus hq)
  | last hp =>
    cases h' with
    | minus h' => exact absurd heq.symm (hminus hp.proper)
    | last hq  =>
      have ⟨hpq, hrr⟩ := hp.unique hq hr.parted hr'.parted heq
      exact ⟨hpq ▸ rfl, hrr⟩
    | next hq _ =>
      rw [List.append_assoc] at heq
      exact absurd (hp.unique hq hr.parted parted_operator heq).2 (hblank hr)
  | next hp _ ih =>
    rw [List.append_assoc] at heq
    cases h' with
    | minus h' => exact absurd heq.symm (hminus hp.proper)
    | last hq  => exact absurd (hp.unique hq parted_operator hr'.parted heq).2.symm (hblank hr')
    | next hq h' =>
      rw [List.append_assoc] at heq
      have ⟨hpq, hrest⟩ := hp.unique hq parted_operator parted_operator heq
      simp only [List.cons.injEq, true_and] at hrest
      have ⟨hts, hrr⟩ := ih h' hrest.2
      rw [hpq, hts, Operator.eq_of_symbol hrest.1]
      exact ⟨rfl, hrr⟩

end Spells

end InfixAlgebra
