import InfixAlgebra.Proofs.Parser.Grammar
import InfixAlgebra.Proofs.Parser.Running

namespace InfixAlgebra

namespace Parser

-- Soundness: whatever a parser reads has a derivation.

variable {α : Type} {e : Ending} {ts rest : List (Spanned α)}

def Sound (p : Parser α (Expr α)) (P : List (Token α) → Expr α → Prop) : Prop :=
  ∀ ⦃e ts t rest⦄, runOn p e ts = .ok (t, rest) →
    ∃ ss, ts = ss ++ rest ∧ P (ss.map (·.token)) t

variable {P Q : List (Token α) → Expr α → Prop} {op? : Token α → Option Operator}
  {operand u : Parser α (Expr α)} {n limit : Nat} {t : Expr α}

theorem chainFrom_sound (hp : Sound operand P)
    (hq : ∀ {us vs o op a b}, op? o = some op → Q us a → P vs b → Q (us ++ o :: vs) (.binary op a b))
    {rounds ss : List (Spanned α)} {left : Expr α} (hl : Q (ss.map (·.token)) left)
    (h : runOn (chainFrom op? operand rounds left) e ts = .ok (t, rest)) :
    ∃ us, ts = us ++ rest ∧ Q ((ss ++ us).map (·.token)) t := by
  induction rounds generalizing ss left ts with
  | nil =>
    cases h
    exact ⟨[], rfl, by simpa using hl⟩
  | cons r rounds ih =>
    rw [chainFrom, runOn_peek?_bind] at h
    cases ho : (next ts).bind op? with
    | none =>
      simp only [ho] at h
      cases h
      exact ⟨[], rfl, by simpa using hl⟩
    | some op =>
      simp only [ho] at h
      have ⟨_, _, ha, h₁⟩ := exists_of_runOn_bind h
      have ⟨b, mid, hb, h₂⟩ := exists_of_runOn_bind h₁
      have ⟨o, hn, ho⟩ := Option.bind_eq_some_iff.mp ho
      have ⟨s, tail, hts, hs⟩ := exists_cons_of_next hn
      have htail := eq_tail_of_runOn_advance ha
      have ⟨vs, hvs, hv⟩ := hp hb
      subst hs hts
      have hleft : Q ((ss ++ s :: vs).map (·.token)) (.binary op left b) := by
        simpa using hq ho hl hv
      have ⟨us, hus, hu⟩ := ih hleft h₂
      refine ⟨s :: vs ++ us, ?_, by simpa using hu⟩
      simp_all

theorem chain_sound (hp : Sound operand P) (hpq : ∀ {us a}, P us a → Q us a)
    (hq : ∀ {us vs o op a b}, op? o = some op → Q us a → P vs b → Q (us ++ o :: vs) (.binary op a b)) :
    Sound (chain op? operand) Q := by
  intro e ts t rest h
  have ⟨a, mid, ha, h₁⟩ := exists_of_runOn_bind h
  have ⟨ss, hss, hs⟩ := hp ha
  rw [runOn_get_bind] at h₁
  have ⟨us, hus, hu⟩ := chainFrom_sound hp hq (hpq hs) h₁
  exact ⟨ss ++ us, by simp [hss, hus], hu⟩

variable (hu : Sound u (Derives .unary n))

include hu

theorem additive_sound : Sound (additive u) (Derives .additive n) := by
  have hm : Sound (chain multiplicative? u) (Derives .multiplicative n) := by
    refine chain_sound hu .factor fun ho ha hb => ?_
    have ⟨ho, hop⟩ := eq_of_multiplicative? ho
    exact ho ▸ .product hop ha hb
  rw [additive]
  refine chain_sound hm .addend fun ho ha hb => ?_
  have ⟨ho, hop⟩ := eq_of_additive? ho
  exact ho ▸ .sum hop ha hb

-- What stands between parentheses.
theorem exists_of_runOn_parenthesized {a : Expr α} {v : Unit} {mid : List (Spanned α)}
    (ha : runOn (additive u) e ts = .ok (a, mid)) (hc : runOn closing e mid = .ok (v, rest)) :
    ∃ ss s, ts = ss ++ s :: rest ∧ s.token = .closing ∧ Derives .additive n (ss.map (·.token)) a := by
  have ⟨ss, hss, hd⟩ := additive_sound hu ha
  have ⟨s, hmid, hs⟩ := exists_cons_of_runOn_closing hc
  exact ⟨ss, s, hmid ▸ hss, hs, hd⟩

theorem argument_sound {f : Elementary} {s : Spanned α} {tail : List (Spanned α)}
    (hs : s.token = .elementary f) (h : runOn (argument f u) e tail = .ok (t, rest)) :
    ∃ ss, s :: tail = ss ++ rest ∧ Derives .primary n (ss.map (·.token)) t := by
  rw [argument, runOn_peek?_bind] at h
  split at h
  case h_2 =>
    have ⟨_, _, hr, _⟩ := exists_of_runOn_bind h
    exact absurd hr runOn_refuse_ne_ok
  case h_1 ho =>
    have ⟨_, mid, hadv, h₁⟩ := exists_of_runOn_bind h
    have ⟨a, mid', ha, h₂⟩ := exists_of_runOn_bind h₁
    rw [runOn_peek?_bind] at h₂
    split at h₂
    case h_1 =>
      have ⟨_, _, hr, _⟩ := exists_of_runOn_bind h₂
      exact absurd hr runOn_refuse_ne_ok
    case h_2 =>
      have ⟨v, last, hc, h₃⟩ := exists_of_runOn_bind h₂
      cases h₃
      have ⟨o, tail', htail, hot⟩ := exists_cons_of_next ho
      have ⟨ss, c, hmid, hct, hd⟩ := exists_of_runOn_parenthesized hu ha hc
      have hadv := eq_tail_of_runOn_advance hadv
      refine ⟨s :: o :: ss ++ [c], by simp_all, ?_⟩
      simpa [hs, hot, hct] using Derives.call f hd

theorem primary_sound : Sound (primary u) (Derives .primary n) := by
  intro e ts t rest h
  rw [primary, runOn_peek?_bind] at h
  split at h
  case h_1 x hn =>
    have ⟨s, tail, hts, hs⟩ := exists_cons_of_next hn
    have ⟨_, _, ha, h₁⟩ := exists_of_runOn_bind h
    cases h₁
    refine ⟨[s], by simp [hts, eq_tail_of_runOn_advance ha], ?_⟩
    simpa [hs] using Derives.number x
  case h_2 c hn =>
    have ⟨s, tail, hts, hs⟩ := exists_cons_of_next hn
    have ⟨_, _, ha, h₁⟩ := exists_of_runOn_bind h
    cases h₁
    refine ⟨[s], by simp [hts, eq_tail_of_runOn_advance ha], ?_⟩
    simpa [hs] using Derives.constant c
  case h_3 name hn =>
    have ⟨s, tail, hts, hs⟩ := exists_cons_of_next hn
    split at h
    case isFalse => exact absurd h runOn_refuse_ne_ok
    case isTrue hv =>
      have ⟨_, _, ha, h₁⟩ := exists_of_runOn_bind h
      cases h₁
      refine ⟨[s], by simp [hts, eq_tail_of_runOn_advance ha], ?_⟩
      simpa [hs] using Derives.var hv
  case h_4 f hn =>
    have ⟨s, tail, hts, hs⟩ := exists_cons_of_next hn
    have ⟨_, mid, ha, h₁⟩ := exists_of_runOn_bind h
    have ha := eq_tail_of_runOn_advance ha
    have hd := argument_sound hu hs h₁
    simpa [hts, ha] using hd
  case h_5 hn =>
    have ⟨s, tail, hts, hs⟩ := exists_cons_of_next hn
    have ⟨_, mid, hadv, h₁⟩ := exists_of_runOn_bind h
    have ⟨a, mid', ha, h₂⟩ := exists_of_runOn_bind h₁
    have ⟨v, last, hc, h₃⟩ := exists_of_runOn_bind h₂
    cases h₃
    have hadv := eq_tail_of_runOn_advance hadv
    have ⟨ss, c, hmid, hct, hd⟩ := exists_of_runOn_parenthesized hu ha hc
    refine ⟨s :: ss ++ [c], by simp_all, ?_⟩
    simpa [hs, hct] using Derives.parens hd
  case h_6 => exact absurd h runOn_refuse_ne_ok

omit hu

theorem unary_sound (limit n : Nat) : Sound (unary (α := α) limit n) (Derives .unary n) := by
  induction n with
  | zero => intro e ts t rest h; cases h
  | succ n ih =>
    intro e ts t rest h
    rw [unary, runOn_peek?_bind] at h
    split at h
    case h_1 hn =>
      have ⟨s, tail, hts, hs⟩ := exists_cons_of_next hn
      have ⟨_, mid, hadv, h₁⟩ := exists_of_runOn_bind h
      have ⟨a, mid', ha, h₂⟩ := exists_of_runOn_bind h₁
      cases h₂
      have hadv := eq_tail_of_runOn_advance hadv
      have ⟨ss, hss, hd⟩ := ih ha
      refine ⟨s :: ss, by simp_all, ?_⟩
      simpa [hs] using Derives.negation hd
    case h_2 =>
      have ⟨base, mid, hb, h₁⟩ := exists_of_runOn_bind h
      have ⟨ss, hss, hd⟩ := primary_sound ih hb
      rw [runOn_peek?_bind] at h₁
      split at h₁
      case h_2 =>
        cases h₁
        exact ⟨ss, hss, .positive (.base hd)⟩
      case h_1 hn =>
        have ⟨s, tail, hmid, hs⟩ := exists_cons_of_next hn
        have ⟨_, mid', hadv, h₂⟩ := exists_of_runOn_bind h₁
        have ⟨x, last, hx, h₃⟩ := exists_of_runOn_bind h₂
        cases h₃
        have hadv := eq_tail_of_runOn_advance hadv
        have ⟨us, hus, hv⟩ := ih hx
        refine ⟨ss ++ s :: us, by simp_all, ?_⟩
        simpa [hs] using Derives.positive (.power hd hv)

end Parser

end InfixAlgebra
