import InfixAlgebra.Proofs.Parser.Soundness
import InfixAlgebra.Proofs.Parser.Completeness
import InfixAlgebra.Proofs.Parser.Limit
import InfixAlgebra.Scalar.Double

namespace InfixAlgebra

namespace Parser

variable {α : Type} {e : Ending} {ts rest : List (Spanned α)} {limit n k : Nat} {t : Expr α}

theorem runOn_checkDepth_of_le (h : t.depth ≤ limit) :
    runOn (t.checkDepth limit : Parser α Unit) e ts = .ok ((), ts) := by
  rw [Expr.checkDepth, if_neg (Nat.not_lt.mpr h)]
  rfl

theorem runOn_checkDepth_of_lt (h : limit < t.depth) :
    runOn (t.checkDepth limit : Parser α Unit) e ts = .error (.tooDeep limit) := by
  rw [Expr.checkDepth, if_pos h]
  rfl

theorem runOn_expression_of_error {x : Error α}
    (h : runOn (additive (unary limit limit)) (.finished k) ts = .error x) :
    runOn (expression limit) (.finished k) ts = .error x := by
  rw [expression, runOn_bind_of_ok runOn_settle_finished, runOn_bind_of_error h]

theorem runOn_expression_of_ok
    (h : runOn (additive (unary limit limit)) (.finished k) ts = .ok (t, [])) :
    runOn (expression limit) (.finished k) ts =
      if t.depth ≤ limit then .ok (t, []) else .error (.tooDeep limit) := by
  rw [expression, runOn_bind_of_ok runOn_settle_finished, runOn_bind_of_ok h, runOn_peek?_bind]
  show runOn (do (t.checkDepth limit : Parser α Unit); return t) _ _ = _
  split
  case isTrue hd  => exact runOn_bind_of_ok (runOn_checkDepth_of_le hd)
  case isFalse hd => exact runOn_bind_of_error (runOn_checkDepth_of_lt (Nat.lt_of_not_le hd))

theorem derives_of_runOn_expression (h : runOn (expression limit) e ts = .ok (t, rest)) :
    Derives .additive limit (ts.map (·.token)) t ∧ t.depth ≤ limit := by
  have ⟨_, mid, hs, h₁⟩ := exists_of_runOn_bind h
  have ⟨u, tail, ha, h₂⟩ := exists_of_runOn_bind h₁
  have hmid := eq_of_runOn_settle hs
  have ⟨ss, hss, hd⟩ := additive_sound (unary_sound limit limit) ha
  rw [runOn_peek?_bind] at h₂
  cases tail with
  | cons s tail =>
    have ⟨_, _, hr, _⟩ := exists_of_runOn_bind h₂
    exact absurd hr runOn_refuse_ne_ok
  | nil =>
    have ⟨_, _, hc, h₃⟩ := exists_of_runOn_bind h₂
    cases h₃
    by_cases hdepth : t.depth ≤ limit
    case pos => exact ⟨by simpa [← hmid, hss] using hd, hdepth⟩
    case neg => rw [runOn_checkDepth_of_lt (Nat.lt_of_not_le hdepth)] at hc; cases hc

-- Of tokens that spell a tree, nothing is refused but the depth.
theorem runOn_expression_of_derives (limit k : Nat) (d : Derives .additive n (ts.map (·.token)) t) :
    runOn (expression limit) (.finished k) ts = .ok (t, []) ∨
      runOn (expression limit) (.finished k) ts = .error (.tooDeep limit) := by
  have hfull := runOn_additive_of_derives limit k (d.mono (Nat.le_max_left n limit))
  have hbelow := (Below.unary (α := α) limit limit (Nat.le_max_right n limit)).additive
  rcases hbelow (.finished k) ts with hrun | hrun
  case inl => exact .inr (runOn_expression_of_error hrun)
  case inr =>
    rw [runOn_expression_of_ok (hrun.trans hfull)]
    split
    case isTrue  => exact .inl rfl
    case isFalse => exact .inr rfl

end Parser

-- The grammar is unambiguous: a reader with enough of an allowance would have to give both.
theorem Derives.unique {α : Type} {m n : Nat} {ts : List (Token α)} {t u : Expr α}
    (dt : Derives .additive m ts t) (du : Derives .additive n ts u) : t = u := by
  let ss : List (Spanned α) := ts.map (⟨·, 0, 0⟩)
  have hss : ss.map (·.token) = ts := by simp [ss, Function.comp_def]
  have dt' : Derives .additive (max m n) (ss.map (·.token)) t := hss ▸ dt.mono (Nat.le_max_left ..)
  have du' : Derives .additive (max m n) (ss.map (·.token)) u := hss ▸ du.mono (Nat.le_max_right ..)
  have ht := Parser.runOn_additive_of_derives 0 0 dt'
  have hu := Parser.runOn_additive_of_derives 0 0 du'
  simpa using ht.symm.trans hu

theorem Lexing.finished_of_tokens? {α : Type} {l : Lexing α} {ts : List (Spanned α)}
    (h : l.tokens? = .ok ts) : ∃ k, l.ending = .finished k ∧ l.tokens = ts := by
  unfold tokens? at h
  split at h
  case h_1 k hk => exact ⟨k, hk, Except.ok.inj h⟩
  case h_2      => cases h

namespace Expr

variable {α : Type} [NumberText α] {text : String} {ts : List (Spanned α)} {t : Expr α}
  {limit n : Nat}

theorem parse_eq_runOn {k : Nat} (he : (Lexing.ofText (α := α) text).ending = .finished k) :
    parse limit text =
      (·.1) <$> Parser.runOn (α := α) (Parser.expression limit) (.finished k) (Lexing.ofText text).tokens := by
  rw [parse, ← he]
  rfl

theorem parse_eq_of_derives (h : (Lexing.ofText text).tokens? = .ok ts)
    (d : Derives .additive limit (ts.map (·.token)) t) :
    parse limit text = if t.depth ≤ limit then .ok t else .error (.tooDeep limit) := by
  have ⟨k, he, hts⟩ := Lexing.finished_of_tokens? h
  have hrun := Parser.runOn_additive_of_derives limit k d
  rw [parse_eq_runOn he, hts, Parser.runOn_expression_of_ok hrun]
  split <;> rfl

theorem derives_of_parse (h : (Lexing.ofText text).tokens? = .ok ts)
    (hp : parse limit text = .ok t) :
    Derives .additive limit (ts.map (·.token)) t ∧ t.depth ≤ limit := by
  have ⟨k, he, hts⟩ := Lexing.finished_of_tokens? h
  rw [parse_eq_runOn he, hts] at hp
  obtain ⟨r, hrun, rfl⟩ := exists_of_map_eq_ok hp
  exact Parser.derives_of_runOn_expression hrun

-- A text that spells a tree whose derivation or depth goes beyond the limit is refused for that.
theorem parse_eq_tooDeep (h : (Lexing.ofText text).tokens? = .ok ts)
    (d : Derives .additive n (ts.map (·.token)) t)
    (hn : ¬(Derives .additive limit (ts.map (·.token)) t ∧ t.depth ≤ limit)) :
    parse (α := α) limit text = .error (.tooDeep limit) := by
  have ⟨k, he, hts⟩ := Lexing.finished_of_tokens? h
  rw [parse_eq_runOn he, hts]
  rcases Parser.runOn_expression_of_derives limit k d with hrun | hrun
  case inl => exact absurd (Parser.derives_of_runOn_expression hrun) hn
  case inr =>
    rw [hrun]
    rfl

-- The parser accepts exactly what the grammar derives within the limits, the grammar is
-- unambiguous, and whatever it derives beyond the limits is refused as too deep.
theorem parse_exactly_derives (h : (Lexing.ofText text).tokens? = .ok ts) :
    (∀ t, parse limit text = .ok t ↔
      Derives .additive limit (ts.map (·.token)) t ∧ t.depth ≤ limit) ∧
    (∀ m n t u, Derives .additive m (ts.map (·.token)) t →
      Derives .additive n (ts.map (·.token)) u → t = u) ∧
    (∀ n t, Derives .additive n (ts.map (·.token)) t →
      ¬(Derives .additive limit (ts.map (·.token)) t ∧ t.depth ≤ limit) →
      parse (α := α) limit text = .error (.tooDeep limit)) := by
  refine ⟨fun t => ⟨derives_of_parse h, fun ⟨d, hd⟩ => ?_⟩, fun m n t u => Derives.unique, ?_⟩
  · rw [parse_eq_of_derives h d, if_pos hd]
  · exact fun n t d hn => parse_eq_tooDeep h d hn

-- Negation stands between powers and differences, and the difference alone nests four deep.
theorem parse_exactly_derives_of_negated_power :
    (Lexing.ofText (α := Float) "-x ^ y - z").tokens? =
      .ok [⟨.operator .sub, 0, 1⟩, ⟨.name "x", 1, 2⟩, ⟨.operator .pow, 3, 4⟩, ⟨.name "y", 5, 6⟩,
        ⟨.operator .sub, 7, 8⟩, ⟨.name "z", 9, 10⟩] ∧
    parse (α := Float) 4 "-x ^ y - z" = .ok (.sub (.neg (.pow (.var "x") (.var "y"))) (.var "z")) ∧
    parse (α := Float) 3 "-x ^ y - z" = .error (.tooDeep 3) := by
  have h : (Lexing.ofText (α := Float) "-x ^ y - z").tokens? =
      .ok [⟨.operator .sub, 0, 1⟩, ⟨.name "x", 1, 2⟩, ⟨.operator .pow, 3, 4⟩, ⟨.name "y", 5, 6⟩,
        ⟨.operator .sub, 7, 8⟩, ⟨.name "z", 9, 10⟩] := rfl
  have power {n} : Derives (α := Float) .power (n + 1) [.name "x", .operator .pow, .name "y"]
      (.pow (.var "x") (.var "y")) := .power (.var rfl) (.positive (.base (.var rfl)))
  have d : Derives (α := Float) .additive 3
      [.operator .sub, .name "x", .operator .pow, .name "y", .operator .sub, .name "z"]
      (.sub (.neg (.pow (.var "x") (.var "y"))) (.var "z")) :=
    .sum (.inr rfl) (.addend (.factor (.negation (.positive power))))
      (.factor (.positive (.base (.var rfl))))
  refine ⟨h, ((parse_exactly_derives h).1 _).mpr ⟨d.mono (by decide), by decide⟩, ?_⟩
  exact (parse_exactly_derives h).2.2 3 _ d (fun ⟨_, hd⟩ => absurd hd (by decide))

end Expr

end InfixAlgebra
