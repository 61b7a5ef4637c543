import InfixAlgebra.Proofs.Parser.Language
import InfixAlgebra.Proofs.Parser.Positions
import InfixAlgebra.Proofs.Parser.Prediction

namespace InfixAlgebra

namespace Parser

variable {α : Type} {e : Ending} {ts ss rest : List (Spanned α)} {limit : Nat} {t : Expr α}
  {x : Expected} {o : Token α}

theorem Outcome.checkDepth {V : List (Token α) → Prop} (hs : Stands e ts) :
    Outcome limit V (t.checkDepth limit : Parser α Unit) e ts := by
  by_cases h : t.depth ≤ limit
  case pos => exact .reads [] ts hs fun _ _ _ _ => runOn_checkDepth_of_le h
  case neg => exact .tooDeep (runOn_checkDepth_of_lt (Nat.lt_of_not_le h))

theorem Outcome.expression (limit : Nat) (e : Ending) (ts : List (Spanned α)) :
    Outcome limit Viable (expression limit) e ts := by
  by_cases hs : Stands e ts
  case neg =>
    obtain ⟨rfl, k, c, rfl⟩ := eq_nil_of_not_stands hs
    exact .stray rfl (.nil _) rfl
  case pos =>
    refine bind (.reads [] ts hs fun _ _ hs _ => runOn_settle_of_stands hs) fun hts hs hr => ?_
    obtain rfl := eq_of_runOn_settle hr
    obtain rfl := List.self_eq_append_left.mp hts
    refine (Predicts.unary limit limit).additive.bind hs id fun hp hs' _ => ?_
    refine .peek?_bind hs' ?_
    split
    case h_1 => exact .refuse_bind _ hs' (by simpa using hp.begins)
    case h_2 => exact (Outcome.checkDepth hs').bind fun _ hs' _ => .pure _ hs'

-- What is refused is no sentence, whatever it goes on with after the token that is refused.
theorem not_sentence_of_refuses (h : Refuses (expression limit) ss (next rest) x) :
    ¬Sentence ((ss ++ rest).map (·.token)) := by
  intro ⟨n, t, d⟩
  have hrun : runOn (expression limit) (.finished 0) (ss ++ rest) =
      .error (.unexpected (place (.finished 0) rest) (next rest) x) :=
    h (fun _ => ⟨0, rfl⟩) rfl
  rcases runOn_expression_of_derives limit 0 d with hd | hd
  case inl => cases hd.symm.trans hrun
  case inr => cases hd.symm.trans hrun

theorem not_viable_of_refuses (h : Refuses (expression limit) ss (some o) x) :
    ¬Viable (ss.map (·.token) ++ [o]) := by
  intro ⟨us, hs⟩
  let rest : List (Spanned α) := (o :: us).map (⟨·, 0, 0⟩)
  have hrest : rest.map (·.token) = o :: us := by simp [rest, Function.comp_def]
  have hnot : ¬Sentence ((ss ++ rest).map (·.token)) := not_sentence_of_refuses h
  refine hnot ?_
  simpa [hrest] using hs

end Parser

namespace Expr

variable {α : Type} [NumberText α] {text : String} {limit k : Nat}

theorem runOn_of_parse_eq_error {y : Error α} (h : parse limit text = .error y) :
    Parser.runOn (Parser.expression limit) (Lexing.ofText (α := α) text).ending
      (Lexing.ofText text).tokens = .error y :=
  eq_error_of_map_eq_error h

theorem viable_of_unexpected {found : Option (Token α)} {expected : Expected}
    (h : parse limit text = .error (.unexpected k found expected)) :
    let l := Lexing.ofText (α := α) text
    Viable (l.before k) ∧ found = l.at? k ∧
      (∀ o, l.at? k = some o → ¬Viable (l.before k ++ [o])) ∧
      (l.at? k = none → k = text.utf8ByteSize ∧ l.ending = .finished k ∧
        l.before k = l.tokens.map (·.token) ∧ ¬Sentence (l.before k)) := by
  intro l
  have hrun := runOn_of_parse_eq_error h
  generalize hts : l.tokens = ts at hrun
  have hout := Parser.Outcome.expression limit l.ending ts
  cases hout with
  | reads ss rest hs ht => cases (ht hs rfl).symm.trans hrun
  | stray he hv hr      => cases hr.symm.trans hrun
  | tooDeep hr          => cases hr.symm.trans hrun
  | refuses ss rest hs hv hr =>
    cases (hr hs rfl).symm.trans hrun
    have ⟨hbefore, hat⟩ := (Lexing.ordered_ofText text).before_place hts
    refine ⟨hbefore ▸ hv, hat.symm, fun o ho => ?_, fun hnone => ?_⟩
    · rw [hbefore]
      exact Parser.not_viable_of_refuses (hat.symm.trans ho ▸ hr)
    · have hnext := hat.symm.trans hnone
      have hrest : rest = [] := by simpa [Parser.next] using hnext
      subst hrest
      have ⟨k, he⟩ := hs rfl
      have hk := Lexing.eq_of_ofLexemes_finished he
      rw [hbefore]
      refine ⟨?_, ?_, by rw [List.append_nil], ?_⟩
      · rw [← hk, Parser.place, he, Ending.position]
      · rw [Parser.place, he, Ending.position]
      · simpa using Parser.not_sentence_of_refuses hr

theorem viable_of_stray {c : Char} (h : parse (α := α) limit text = .error (.stray k c)) :
    let l := Lexing.ofText (α := α) text
    l.ending = .stray k c ∧ l.before k = l.tokens.map (·.token) ∧ Viable (l.before k) := by
  intro l
  have hrun := runOn_of_parse_eq_error h
  generalize hts : l.tokens = ts at hrun
  have hout := Parser.Outcome.expression limit l.ending ts
  cases hout with
  | reads ss rest hs ht      => cases (ht hs rfl).symm.trans hrun
  | refuses ss rest hs hv hr => cases (hr hs rfl).symm.trans hrun
  | tooDeep hr               => cases hr.symm.trans hrun
  | stray he hv hr =>
    cases hr.symm.trans hrun
    have ⟨hbefore, _⟩ :=
      (Lexing.ordered_ofText text).before_place (hts.trans (List.append_nil ts).symm)
    rw [Parser.place, he, Ending.position] at hbefore
    exact ⟨he, hbefore, hbefore ▸ hv⟩

-- A syntax error is reported at the earliest place: up to there the tokens go on to a sentence, and
-- with the token that starts there they no longer do. A stray character is reported only where the
-- tokens in front of it are all that there is before, and go on to a sentence.
theorem parse_error_earliest (limit : Nat) (text : String) :
    (∀ k found expected, parse (α := α) limit text = .error (.unexpected k found expected) →
      let l := Lexing.ofText (α := α) text
      Viable (l.before k) ∧ found = l.at? k ∧
      (∀ o, l.at? k = some o → ¬Viable (l.before k ++ [o])) ∧
      (l.at? k = none → k = text.utf8ByteSize ∧ l.ending = .finished k ∧
        l.before k = l.tokens.map (·.token) ∧ ¬Sentence (l.before k))) ∧
    (∀ k c, parse (α := α) limit text = .error (.stray k c) →
      let l := Lexing.ofText (α := α) text
      Viable (l.before k) ∧ l.before k = l.tokens.map (·.token) ∧
      (∃ later, Lexeme.scan text = l.tokens.map .token ++ .stray k c :: later) ∧
      ∃ pre post, text.toList = pre ++ c :: post ∧ k = String.utf8Len pre ∧
        Lexeme.isBlank c = false ∧ Token.scan (α := α) (c :: post) = none) := by
  refine ⟨fun k found expected h => viable_of_unexpected h, fun k c h => ?_⟩
  have ⟨he, hbefore, hv⟩ := viable_of_stray h
  have ⟨later, hl⟩ := Lexing.exists_of_ofLexemes_stray he
  have hmem : .stray k c ∈ Lexeme.scan (α := α) text := by rw [hl]; simp
  have ⟨pre, post, hcs, hk, hc⟩ := Lexeme.exists_of_stray_mem_scanFrom hmem
  exact ⟨hv, hbefore, ⟨later, hl⟩, pre, post, hcs, by simpa using hk, hc⟩

-- The stray character comes too late to be reported where an operand is missing before it.
theorem parse_error_earliest_of_missing_operand :
    parse (α := Float) 9 "(x + ) $" = .error (.unexpected 5 (some .closing) .operand) ∧
    Viable (α := Float) [.opening, .name "x", .operator .add] ∧
    ¬Viable (α := Float) [.opening, .name "x", .operator .add, .closing] ∧
    parse (α := Float) 9 "(x + $ )" = .error (.stray 5 '$') ∧
    ∃ later, Lexeme.scan (α := Float) "(x + $ )" =
      [.token ⟨.opening, 0, 1⟩, .token ⟨.name "x", 1, 2⟩, .token ⟨.operator .add, 3, 4⟩] ++
        .stray 5 '$' :: later := by
  have h : parse (α := Float) 9 "(x + ) $" = .error (.unexpected 5 (some .closing) .operand) := rfl
  have h' : parse (α := Float) 9 "(x + $ )" = .error (.stray 5 '$') := rfl
  have ⟨hv, _, hn, _⟩ := (parse_error_earliest 9 "(x + ) $").1 _ _ _ h
  have ⟨_, _, hl, _⟩ := (parse_error_earliest 9 "(x + $ )").2 _ _ h'
  exact ⟨h, hv, hn _ rfl, h', hl⟩

end Expr

end InfixAlgebra
