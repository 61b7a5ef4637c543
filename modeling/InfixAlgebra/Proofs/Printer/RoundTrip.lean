import InfixAlgebra.Proofs.Double.Display
import InfixAlgebra.Proofs.Printer.Operand

namespace InfixAlgebra

namespace Token

variable {α : Type} [NumberText α] {t : Token α} {cs : List Char} {n : Nat}

-- What a text has to say of a token: numbers are what numerals stand for, and the name of a
-- constant is no other name.
def Scanned : Token α → Prop
  | number x => ∃ d, x = NumberText.ofDecimal d
  | name s   => s ≠ Constant.e.name
  | _        => True

theorem scanned_ofWord (w : List Char) : (ofWord w : Token α).Scanned := by
  unfold ofWord
  split
  case h_1 => trivial
  case h_2 => trivial
  case h_3 hc _ =>
    intro he
    have hw : w = Constant.e.name.toList := by rw [← he, String.toList_ofList]
    subst hw
    exact absurd hc (by decide)

theorem scanned_ofMark? {c : Char} (h : ofMark? c = some t) : t.Scanned := by
  unfold ofMark? at h
  split at h <;> cases h <;> trivial

theorem scanned_of_scan (h : scan cs = some (t, n)) : t.Scanned := by
  unfold scan at h
  split at h
  case h_1 => cases h
  case h_2 c cs =>
    split at h
    case isTrue =>
      cases h
      exact scanned_ofWord _
    case isFalse =>
      split at h
      case h_1 s hs =>
        cases h
        exact scanned_ofMark? hs
      case h_2 =>
        have ⟨m, _, hm⟩ := Option.bind_eq_some_iff.mp h
        cases hm
        exact ⟨m.decimal, rfl⟩

theorem scanned_of_mem_scanFrom {p k : Nat} {s : Spanned α}
    (h : .token s ∈ Lexeme.scanFrom p k cs) : s.token.Scanned := by
  induction cs generalizing p k with
  | nil => cases k <;> cases h
  | cons c cs ih =>
    cases k with
    | succ k => exact ih h
    | zero =>
      simp only [Lexeme.scanFrom] at h
      split at h
      case isTrue  => exact ih h
      case isFalse =>
        split at h
        case h_1 hs =>
          rcases List.mem_cons.mp h with h | h
          case inl =>
            cases h
            exact scanned_of_scan hs
          case inr => exact ih h
        case h_2 =>
          rcases List.mem_cons.mp h with h | h
          case inl => cases h
          case inr => exact ih h

omit [NumberText α] in
theorem mem_of_mem_ofLexemes {stop : Nat} {ls : List (Lexeme α)} {s : Spanned α}
    (h : s ∈ (Lexing.ofLexemes stop ls).tokens) : .token s ∈ ls := by
  induction ls with
  | nil => cases h
  | cons l ls ih =>
    cases l with
    | stray => cases h
    | token u =>
      rcases List.mem_cons.mp h with h | h
      case inl => exact h ▸ List.mem_cons_self
      case inr => exact List.mem_cons_of_mem _ (ih h)

theorem scanned_of_mem_ofText {text : String} {s : Spanned α}
    (h : s ∈ (Lexing.ofText text).tokens) : s.token.Scanned :=
  scanned_of_mem_scanFrom (mem_of_mem_ofLexemes h)

end Token

namespace Expr

section

variable {α : Type} [NumberText α] {t : Expr α} {p : Phrase} {n limit : Nat} {ts : List (Token α)}

def OfNumerals (t : Expr α) : Prop :=
  ∀ x ∈ t.numbers, ∃ d, x = NumberText.ofDecimal d

-- What the grammar derives from a text has the shape that it can be printed from.
theorem spellable_of_derives (d : Derives p n ts t) (hs : ∀ s ∈ ts, s.Scanned) :
    t.Spellable ∧ t.OfNumerals := by
  have binary {ts us : List (Token α)} {op : Operator} {a b : Expr α}
      (iha : (∀ s ∈ ts, s.Scanned) → a.Spellable ∧ a.OfNumerals)
      (ihb : (∀ s ∈ us, s.Scanned) → b.Spellable ∧ b.OfNumerals)
      (hs : ∀ s ∈ ts ++ .operator op :: us, s.Scanned) :
      (Expr.binary op a b).Spellable ∧ (Expr.binary op a b).OfNumerals := by
    have ⟨ha, hxa⟩ := iha fun s hm => hs s (by simp [hm])
    have ⟨hb, hxb⟩ := ihb fun s hm => hs s (by simp [hm])
    refine ⟨.binary op ha hb, fun x hx => ?_⟩
    rcases List.mem_append.mp hx with hx | hx
    case inl => exact hxa x hx
    case inr => exact hxb x hx
  induction d with
  | sum _ _ _ iha ihb     => exact binary iha ihb hs
  | product _ _ _ iha ihb => exact binary iha ihb hs
  | power _ _ iha ihb     => exact binary iha ihb hs
  | addend _ ih           => exact ih hs
  | factor _ ih           => exact ih hs
  | positive _ ih         => exact ih hs
  | base _ ih             => exact ih hs
  | parens _ ih           => exact ih fun s hm => hs s (by simp [hm])
  | constant c            => exact ⟨.constant c, nofun⟩
  | var h                 => exact ⟨.var h (hs _ (List.mem_singleton_self _)), nofun⟩
  | number x =>
    have hx := hs _ (List.mem_singleton_self _)
    refine ⟨.number x, fun y hy => ?_⟩
    rw [List.mem_singleton.mp hy]
    exact hx
  | negation _ ih =>
    have ⟨ht, hx⟩ := ih fun s hm => hs s (by simp [hm])
    exact ⟨.neg ht, hx⟩
  | call f _ ih =>
    have ⟨ht, hx⟩ := ih fun s hm => hs s (by simp [hm])
    exact ⟨.call f ht, by simpa [OfNumerals, numbers, numbersOfAll] using hx⟩

theorem spellable_of_parse {text : String} (h : parse limit text = .ok t) :
    t.Spellable ∧ t.OfNumerals := by
  let l := Lexing.ofText (α := α) text
  have h : (·.1) <$> Parser.runOn (Parser.expression limit) l.ending l.tokens = .ok t := h
  obtain ⟨r, hrun, rfl⟩ := exists_of_map_eq_ok h
  refine spellable_of_derives (Parser.derives_of_runOn_expression hrun).1 fun s hs => ?_
  have ⟨u, hu, hs⟩ := List.mem_map.mp hs
  exact hs ▸ Token.scanned_of_mem_ofText hu

end

theorem unsigned_eq_self {α : Type} [Scalar α] {t : Expr α}
    (h : ∀ x ∈ t.numbers, (number x).unsigned = number x) (ht : t.Spellable) : t.unsigned = t := by
  induction ht with
  | number x   => exact h x (by simp [numbers])
  | constant c => rfl
  | var _ _    => rfl
  | neg _ ih   => exact congrArg neg (ih h)
  | binary op _ _ iha ihb =>
    have ha := iha fun x hx => h x (by simp [numbers, hx])
    have hb := ihb fun x hx => h x (by simp [numbers, hx])
    rw [unsigned, ha, hb]
  | call f _ ih =>
    have ha := ih (by simpa [numbers, numbersOfAll] using h)
    simp [unsigned, unsignedAll, ha]

end Expr

namespace Double

variable {x : Float}

theorem displayed (hx : x.isFinite) (hr : ReadsBack x) : Expr.Displayed x := by
  cases hlt : Scalar.lt x 0 with
  | true =>
    have ⟨n, hn, htext, hval⟩ := display_of_lt hx hr hlt
    refine ⟨n, hn, ?_⟩
    rw [hlt]
    exact ⟨htext, hval⟩
  | false =>
    have ⟨n, hn, htext, hval⟩ := display_of_not_lt hx hr hlt
    refine ⟨n, hn, ?_⟩
    rw [hlt]
    exact ⟨htext, hval⟩

-- Numerals stand for no negative numbers and not for the negative zero.
theorem unsigned_ofDecimal (d : Decimal) :
    (Expr.number (Binary64.ofDecimal d)).unsigned = .number (Binary64.ofDecimal d) := by
  have hu := unsigned_unpacked (isNegative_ofDecimal d)
  generalize Binary64.ofDecimal d = x at hu
  have hlt : Scalar.lt x 0 = false := by
    rw [lt_eq]
    cases hx : unpacked x <;> rw [hx] at hu <;> cases hu <;> rfl
  have hzero (h : x == 0) : x = 0 := by
    apply eq_of_unpacked
    rw [beq_eq] at h
    cases hx : unpacked x <;> rw [hx] at hu h <;> cases hu <;> first | rfl | cases h
  rw [Expr.unsigned, hlt]
  split
  case isTrue h  => cases h
  case isFalse =>
    split
    case isTrue h  => rw [hzero h]
    case isFalse   => rfl

end Double

namespace Expr

variable {t : Expr Float}

-- Reading what was printed gives the expression back up to the signs of numbers, for every limit
-- that its depth admits, and gives expressions that were read from a text back as they are. What
-- this takes of numbers is that they are finite and that their digits read back.
theorem parse_render (hf : ∀ x ∈ t.numbers, x.isFinite) (hr : ∀ x ∈ t.numbers, Double.ReadsBack x) :
    (t.Spellable → ∀ limit, t.unsigned.depth ≤ limit → parse limit t.render = .ok t.unsigned) ∧
    (∀ m text, parse m text = .ok t → ∀ limit, t.depth ≤ limit →
      parse limit t.render = .ok t) := by
  have hx (x : Float) (hm : x ∈ t.numbers) : Displayed x :=
    Double.displayed (hf x hm) (hr x hm)
  refine ⟨fun ht limit hl => ht.parse_render_eq hx hl, fun m text h limit hl => ?_⟩
  have ⟨ht, hn⟩ := spellable_of_parse h
  have hu : t.unsigned = t := by
    refine unsigned_eq_self (fun x hm => ?_) ht
    have ⟨d, hd⟩ := hn x hm
    exact hd ▸ Double.unsigned_ofDecimal d
  have hp := ht.parse_render_eq hx (hu ▸ hl)
  rwa [hu] at hp

-- The base keeps its parentheses, the exponent needs none.
theorem parse_render_of_negative_base :
    let t : Expr Float := .pow (.number (-2.5)) (.neg (.call .sin [.var "x"]))
    let u : Expr Float := .pow (.neg (.number 2.5)) (.neg (.call .sin [.var "x"]))
    t.Spellable ∧ (∀ x ∈ t.numbers, x.isFinite) ∧ (∀ x ∈ t.numbers, Double.ReadsBack x) ∧
    parse 4 t.render = .ok u ∧ parse 4 u.render = .ok u := by
  intro t u
  have ht : t.Spellable :=
    .binary .pow (.number _) (.neg (.call .sin (.var rfl (by decide))))
  have hf : ∀ x ∈ t.numbers, x.isFinite := List.forall_mem_singleton.mpr (by decide +kernel)
  have hf' : ∀ x ∈ u.numbers, x.isFinite := List.forall_mem_singleton.mpr (by decide +kernel)
  have hr : ∀ x ∈ t.numbers, Double.ReadsBack x :=
    List.forall_mem_singleton.mpr ⟨by decide +kernel, by decide +kernel⟩
  have hr' : ∀ x ∈ u.numbers, Double.ReadsBack x :=
    List.forall_mem_singleton.mpr ⟨by decide +kernel, by decide +kernel⟩
  have hu : t.unsigned = u := rfl
  have hp : parse 4 t.render = .ok u := (parse_render hf hr).1 ht 4 (by decide)
  exact ⟨ht, hf, hr, hp, (parse_render hf' hr').2 4 t.render hp 4 (by decide)⟩

end Expr

end InfixAlgebra
