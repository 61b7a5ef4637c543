import InfixAlgebra.Proofs.Parser.Completeness
import InfixAlgebra.Proofs.Parser.Outcome
import InfixAlgebra.Proofs.Parser.Soundness

namespace InfixAlgebra

namespace Parser

-- Prediction: no parser goes past a token that does not go on with the phrase that it reads.

variable {α β γ : Type} {e : Ending} {ts rest : List (Spanned α)} {p q : Phrase} {limit : Nat}
  {op? : Token α → Option Operator} {operand u : Parser α (Expr α)} {left : Expr α}
  {V : List (Token α) → Prop}

structure Predicts (limit : Nat) (u : Parser α (Expr α)) (q : Phrase) : Prop where
  sound   : Sound u fun ts _ => IsPhrase q ts
  outcome : ∀ {e ts}, Stands e ts → Outcome limit (Begins q) u e ts

theorem Sound.isPhrase {n : Nat} (h : Sound u (Derives q n)) : Sound u fun ts _ => IsPhrase q ts :=
  fun _ _ _ _ hr =>
    have ⟨ss, hts, hd⟩ := h hr
    ⟨ss, hts, n, _, hd⟩

-- What may go on after a phrase has been read.
theorem Predicts.bind {f : Expr α → Parser α β} (h : Predicts limit u q) (hs : Stands e ts)
    (hv : ∀ {us}, Begins q us → V us)
    (hf : ∀ {ss : List (Spanned α)} {rest a}, IsPhrase q (ss.map (·.token)) → Stands e rest →
      ts = ss ++ rest → Outcome limit (fun us => V (ss.map (·.token) ++ us)) (f a) e rest) :
    Outcome limit V (u >>= f) e ts := by
  refine ((h.outcome hs).mono hv).bind fun hts hs' hr => ?_
  have ⟨us, hus, hp⟩ := h.sound hr
  obtain rfl := List.append_cancel_right (hts.symm.trans hus)
  exact hf hp hs' hts

theorem runOn_bind_congr {x : Parser α β} {f g : β → Parser α γ}
    (h : ∀ {b rest}, runOn x e ts = .ok (b, rest) → runOn (f b) e rest = runOn (g b) e rest) :
    runOn (x >>= f) e ts = runOn (x >>= g) e ts := by
  cases hx : runOn x e ts with
  | error y => rw [runOn_bind_of_error hx, runOn_bind_of_error hx]
  | ok r    => rw [runOn_bind_of_ok hx, runOn_bind_of_ok hx, h hx]

theorem length_le_of_runOn {P : List (Token α) → Expr α → Prop} (hp : Sound operand P) {t : Expr α}
    (h : runOn operand e ts = .ok (t, rest)) : rest.length ≤ ts.length := by
  have ⟨ss, hts, _⟩ := hp h
  simp [hts]

-- A chain has rounds enough if it has as many as there are tokens.
theorem runOn_chainFrom_congr {P : List (Token α) → Expr α → Prop} (hp : Sound operand P)
    {rounds rounds' : List (Spanned α)} (h : ts.length ≤ rounds.length)
    (h' : ts.length ≤ rounds'.length) :
    runOn (chainFrom op? operand rounds left) e ts =
      runOn (chainFrom op? operand rounds' left) e ts := by
  induction rounds generalizing rounds' left ts with
  | nil =>
    obtain rfl := List.length_eq_zero_iff.mp (Nat.le_zero.mp h)
    rw [runOn_chainFrom_stop rfl, runOn_chainFrom_stop rfl]
  | cons r rounds ih =>
    cases ho : (next ts).bind op? with
    | none => rw [runOn_chainFrom_stop ho, runOn_chainFrom_stop ho]
    | some op =>
      have ⟨o, hn, _⟩ := Option.bind_eq_some_iff.mp ho
      obtain ⟨s, tail, rfl, _⟩ := exists_cons_of_next hn
      cases rounds' with
      | nil => simp at h'
      | cons r' rounds' =>
        rw [chainFrom, chainFrom, runOn_peek?_bind, runOn_peek?_bind]
        simp only [ho]
        refine runOn_bind_congr fun ha => runOn_bind_congr fun hb => ?_
        have hmid := congrArg List.length (eq_tail_of_runOn_advance ha)
        have hrest := length_le_of_runOn hp hb
        simp only [List.tail_cons, List.length_cons] at hmid h h'
        exact ih (by omega) (by omega)

def chainOn (op? : Token α → Option Operator) (operand : Parser α (Expr α)) (left : Expr α) :
    Parser α (Expr α) := do
  chainFrom op? operand (← get) left

theorem chainOn_eq {P : List (Token α) → Expr α → Prop} (hp : Sound operand P) :
    chainOn op? operand left = (do
      match (← peek?).bind op? with
      | none    => pure left
      | some op => do
        advance
        let right ← operand
        chainOn op? operand (.binary op left right)) := by
  funext e ts
  show runOn (chainFrom op? operand ts left) e ts = runOn _ e ts
  rw [runOn_peek?_bind]
  cases ts with
  | nil => rfl
  | cons s tail =>
    rw [chainFrom, runOn_peek?_bind]
    cases (next (s :: tail)).bind op? with
    | none => rfl
    | some op =>
      refine runOn_bind_congr fun ha => runOn_bind_congr fun hb => ?_
      have hmid := congrArg List.length (eq_tail_of_runOn_advance ha)
      have hrest := length_le_of_runOn hp hb
      exact runOn_chainFrom_congr hp (by simpa [hmid] using hrest) (Nat.le_refl _)

section Chain

variable (h : Predicts limit operand p)
  (hq : ∀ {ts us o op}, op? o = some op → IsPhrase q ts → IsPhrase p us →
    IsPhrase q (ts ++ o :: us))

include h hq

theorem Predicts.chainOn {ls : List (Token α)} (hl : IsPhrase q ls) (hs : Stands e ts) :
    Outcome limit (fun us => Begins q (ls ++ us)) (chainOn op? operand left) e ts := by
  induction hn : ts.length using Nat.strong_induction_on generalizing ts ls left with
  | _ n ih =>
    rw [chainOn_eq h.sound]
    refine .peek?_bind hs ?_
    cases ho : (next ts).bind op? with
    | none => exact .pure left hs
    | some op =>
      have ⟨o, hnext, ho⟩ := Option.bind_eq_some_iff.mp ho
      obtain ⟨s, tail, rfl, rfl⟩ := exists_cons_of_next hnext
      -- The operator and the beginning of another operand still begin a phrase.
      have hbegins {us} : Begins p us → Begins q (ls ++ s.token :: us) :=
        fun ⟨vs, hp⟩ => ⟨vs, by simpa using hq ho hl hp⟩
      refine .advance_bind (hbegins (.nil p)) fun hs => ?_
      refine h.bind hs hbegins fun {ss rest _} hp hs' hts => ?_
      have hlen : rest.length < n := by
        rw [← hn, hts, List.length_cons, List.length_append]
        omega
      simpa using ih rest.length hlen (hq ho hl hp) hs' rfl

theorem Predicts.chain (hpq : ∀ {ts}, IsPhrase (α := α) p ts → IsPhrase q ts) :
    Predicts limit (chain op? operand) q where
  sound := chain_sound h.sound hpq fun ho ha hb => hq ho ha hb
  outcome hs := h.bind hs (.mono hpq) fun hp hs' _ => Predicts.chainOn h hq (hpq hp) hs'

end Chain

theorem Outcome.closing (hs : Stands e ts) (h : V []) (hc : V [.closing]) :
    Outcome limit V closing e ts := by
  refine .peek?_bind hs ?_
  split
  case h_1 hn =>
    obtain ⟨s, tail, rfl, hst⟩ := exists_cons_of_next hn
    exact .advance (hst ▸ hc)
  case h_2 => exact .refuse .closing hs h

section Unary

variable (h : Predicts limit u .unary)

include h

theorem Predicts.additive : Predicts limit (additive u) .additive := by
  have hm : Predicts limit (Parser.chain multiplicative? u) .multiplicative := by
    refine h.chain (fun ho ha hb => ?_) .factor
    have ⟨ho, hop⟩ := eq_of_multiplicative? ho
    exact ho ▸ .product hop ha hb
  refine hm.chain (fun ho ha hb => ?_) .addend
  have ⟨ho, hop⟩ := eq_of_additive? ho
  exact ho ▸ .sum hop ha hb

theorem Predicts.argument (f : Elementary) (hs : Stands e ts) :
    Outcome limit (fun us => Begins .primary (.elementary f :: us)) (argument f u) e ts := by
  have hcall {us : List (Token α)} (hb : Begins .additive us) :
      Begins .primary (.elementary f :: .opening :: us) := hb.call f
  refine .peek?_bind hs ?_
  split
  case h_2 => exact .refuse_bind _ hs (Begins.of_function f)
  case h_1 hn =>
    obtain ⟨s, tail, rfl, hst⟩ := exists_cons_of_next hn
    refine .advance_bind (hst ▸ hcall (.nil _)) fun hs => ?_
    rw [hst]
    refine h.additive.bind hs hcall fun hp hs' _ => ?_
    refine .peek?_bind hs' ?_
    split
    case h_1 => exact .refuse_bind _ hs' (by simpa using hcall hp.begins)
    case h_2 =>
      refine (Outcome.closing hs' ?_ ?_).bind fun _ hs'' _ => .pure _ hs''
      · simpa using hcall hp.begins
      · simpa using (hp.call f).begins

theorem Predicts.primary (hsound : Sound (primary u) fun ts _ => IsPhrase .primary ts) :
    Predicts limit (primary u) .primary where
  sound := hsound
  outcome {e ts} hs := by
    refine .peek?_bind hs ?_
    split
    case h_1 x hn =>
      obtain ⟨s, tail, rfl, hst⟩ := exists_cons_of_next hn
      exact .advance_bind (hst ▸ (IsPhrase.number x).begins) fun hs => .pure _ hs
    case h_2 c hn =>
      obtain ⟨s, tail, rfl, hst⟩ := exists_cons_of_next hn
      exact .advance_bind (hst ▸ (IsPhrase.constant c).begins) fun hs => .pure _ hs
    case h_3 name hn =>
      obtain ⟨s, tail, rfl, hst⟩ := exists_cons_of_next hn
      split
      case isTrue hv => exact .advance_bind (hst ▸ (IsPhrase.var hv).begins) fun hs => .pure _ hs
      case isFalse   => exact .refuse _ hs (.nil _)
    case h_4 f hn =>
      obtain ⟨s, tail, rfl, hst⟩ := exists_cons_of_next hn
      exact .advance_bind (hst ▸ Begins.of_function f) fun hs => hst ▸ h.argument f hs
    case h_5 hn =>
      obtain ⟨s, tail, rfl, hst⟩ := exists_cons_of_next hn
      refine .advance_bind (hst ▸ (Begins.nil _).parens) fun hs => ?_
      rw [hst]
      refine h.additive.bind hs Begins.parens fun hp hs' _ => ?_
      refine (Outcome.closing hs' ?_ ?_).bind fun _ hs'' _ => .pure _ hs''
      · simpa using hp.begins.parens
      · simpa using hp.parens.begins
    case h_6 => exact .refuse .operand hs (.nil _)

end Unary

theorem Predicts.unary (limit n : Nat) : Predicts (α := α) limit (unary limit n) .unary where
  sound := (unary_sound limit n).isPhrase
  outcome {e ts} hs := by
    induction n generalizing e ts with
    | zero => exact .tooDeep rfl
    | succ n ih =>
      have hu : Predicts (α := α) limit (Parser.unary limit n) .unary :=
        ⟨(unary_sound limit n).isPhrase, ih⟩
      have hp := hu.primary (primary_sound (unary_sound limit n)).isPhrase
      refine .peek?_bind hs ?_
      split
      case h_1 hn =>
        obtain ⟨s, tail, rfl, hst⟩ := exists_cons_of_next hn
        refine .advance_bind (hst ▸ (Begins.nil _).negation) fun hs => ?_
        rw [hst]
        exact hu.bind hs Begins.negation fun _ hs' _ => .pure _ hs'
      case h_2 =>
        refine hp.bind hs (.mono .base) fun hprim hs' _ => ?_
        refine .peek?_bind hs' ?_
        split
        case h_1 hn =>
          obtain ⟨s, tail, rfl, hst⟩ := exists_cons_of_next hn
          refine .advance_bind (hst ▸ (Begins.nil _).power hprim) fun hs => ?_
          rw [hst]
          exact hu.bind hs (.power hprim) fun _ hs'' _ => .pure _ hs''
        case h_2 => exact .pure _ hs'

end Parser

end InfixAlgebra
