import InfixAlgebra.Proofs.Parser.Grammar
import InfixAlgebra.Proofs.Parser.Running

namespace InfixAlgebra

namespace Parser

-- Completeness: whatever has a derivation is read, provided that what follows it does not go on
-- with an operator that binds at least as strongly.

variable {α : Type} {e : Ending} {ts rest : List (Spanned α)} {k n limit : Nat} {t : Expr α}
  {op? : Token α → Option Operator} {operand : Parser α (Expr α)} {rounds : List (Spanned α)}
  {left : Expr α}

theorem runOn_chainFrom_stop (h : (next ts).bind op? = none) :
    runOn (chainFrom op? operand rounds left) e ts = .ok (left, ts) := by
  cases rounds with
  | nil            => rfl
  | cons r rounds  => simp [chainFrom, runOn_peek?_bind, h]

theorem runOn_chainFrom_step {r s : Spanned α} {op : Operator} {b : Expr α}
    {tail : List (Spanned α)} (ho : op? s.token = some op)
    (hb : runOn operand (.finished k) tail = .ok (b, rest)) :
    runOn (chainFrom op? operand (r :: rounds) left) (.finished k) (s :: tail) =
      runOn (chainFrom op? operand rounds (.binary op left b)) (.finished k) rest := by
  rw [chainFrom, runOn_peek?_bind]
  simp only [next_cons, Option.bind_some, ho]
  rw [runOn_bind_of_ok runOn_advance_finished, List.tail_cons, runOn_bind_of_ok hb]

-- What reading the tokens `ss` of a phrase comes to when `rest` follows. A chain of operands has
-- still to see whether it goes on.
def Reads (p : Phrase) (n : Nat) (ss : List (Spanned α)) (t : Expr α) : Prop :=
  ∀ ⦃limit k rest⦄,
    match p with
    | .additive       =>
      next rest ≠ some (.operator .pow) → (next rest).bind multiplicative? = none →
      ∃ rounds, rest.length ≤ rounds.length ∧
        runOn (additive (unary limit n)) (.finished k) (ss ++ rest) =
          runOn (chainFrom additive? (chain multiplicative? (unary limit n)) rounds t)
            (.finished k) rest
    | .multiplicative =>
      next rest ≠ some (.operator .pow) →
      ∃ rounds, rest.length ≤ rounds.length ∧
        runOn (chain multiplicative? (unary limit n)) (.finished k) (ss ++ rest) =
          runOn (chainFrom multiplicative? (unary limit n) rounds t) (.finished k) rest
    | .unary          =>
      next rest ≠ some (.operator .pow) →
      runOn (unary limit n) (.finished k) (ss ++ rest) = .ok (t, rest)
    | .power          =>
      next rest ≠ some (.operator .pow) →
      runOn (unary limit (n + 1)) (.finished k) (ss ++ rest) = .ok (t, rest)
    | .primary        => runOn (primary (unary limit n)) (.finished k) (ss ++ rest) = .ok (t, rest)

namespace Reads

variable {ss us : List (Spanned α)} {s o c : Spanned α} {op : Operator} {a b : Expr α}

theorem sum (h : op = .add ∨ op = .sub) (hs : s.token = .operator op)
    (ha : Reads .additive n ss a) (hb : Reads .multiplicative n us b) :
    Reads .additive n (ss ++ s :: us) (.binary op a b) := by
  intro limit k rest hpow hmul
  have hadd : additive? s.token = some op := by rcases h with rfl | rfl <;> simp [hs, additive?]
  have ⟨rounds, hlen, hrun⟩ := @ha limit k (s :: us ++ rest)
    (by rcases h with rfl | rfl <;> simp [hs])
    (by rcases h with rfl | rfl <;> simp [hs, multiplicative?])
  have ⟨_, _, hrun'⟩ := @hb limit k rest hpow
  have hright := hrun'.trans (runOn_chainFrom_stop hmul)
  cases rounds with
  | nil => simp at hlen
  | cons r rounds =>
    refine ⟨rounds, by simp at hlen; omega, ?_⟩
    rw [List.append_assoc, hrun]
    exact runOn_chainFrom_step hadd hright

theorem addend (h : Reads .multiplicative n ss t) : Reads .additive n ss t := by
  intro limit k rest hpow hmul
  have ⟨_, _, hrun⟩ := @h limit k rest hpow
  have hleft := hrun.trans (runOn_chainFrom_stop hmul)
  exact ⟨rest, Nat.le_refl _, runOn_bind_of_ok hleft⟩

theorem product (h : op = .mul ∨ op = .div) (hs : s.token = .operator op)
    (ha : Reads .multiplicative n ss a) (hb : Reads .unary n us b) :
    Reads .multiplicative n (ss ++ s :: us) (.binary op a b) := by
  intro limit k rest hpow
  have hmul : multiplicative? s.token = some op := by
    rcases h with rfl | rfl <;> simp [hs, multiplicative?]
  have ⟨rounds, hlen, hrun⟩ := @ha limit k (s :: us ++ rest)
    (by rcases h with rfl | rfl <;> simp [hs])
  have hright := @hb limit k rest hpow
  cases rounds with
  | nil => simp at hlen
  | cons r rounds =>
    refine ⟨rounds, by simp at hlen; omega, ?_⟩
    rw [List.append_assoc, hrun]
    exact runOn_chainFrom_step hmul hright

theorem factor (h : Reads .unary n ss t) : Reads .multiplicative n ss t := by
  intro limit k rest hpow
  exact ⟨rest, Nat.le_refl _, runOn_bind_of_ok (h hpow)⟩

theorem negation (hs : s.token = .operator .sub) (h : Reads .unary n ss t) :
    Reads .unary (n + 1) (s :: ss) (.neg t) := by
  intro limit k rest hpow
  rw [unary, runOn_peek?_bind]
  simp only [List.cons_append, next_cons, hs]
  rw [runOn_bind_of_ok runOn_advance_finished, List.tail_cons, runOn_bind_of_ok (h hpow)]
  rfl

-- A primary expression never begins with a minus, so it is not taken for a negation.
theorem runOn_unary_of_primary (hne : next ss ≠ some (.operator .sub)) (hss : ss ≠ [])
    (h : Reads .primary n ss a) :
    runOn (unary limit (n + 1)) (.finished k) (ss ++ rest) =
      runOn (do
        match ← peek? with
        | some (.operator .pow) => do
          advance
          return .pow a (← unary limit n)
        | _ => return a) (.finished k) rest := by
  have hnext : next (ss ++ rest) = next ss := by
    cases ss with
    | nil      => exact absurd rfl hss
    | cons _ _ => rfl
  rw [unary, runOn_peek?_bind, hnext]
  split
  case h_1 hn => exact absurd hn hne
  case h_2    => exact runOn_bind_of_ok (@h limit k rest)

theorem power (hs : s.token = .operator .pow) (hne : next ss ≠ some (.operator .sub))
    (hss : ss ≠ []) (ha : Reads .primary n ss a) (hb : Reads .unary n us b) :
    Reads .power n (ss ++ s :: us) (.pow a b) := by
  intro limit k rest hpow
  rw [List.append_assoc, runOn_unary_of_primary hne hss ha, runOn_peek?_bind]
  simp only [List.cons_append, next_cons, hs]
  rw [runOn_bind_of_ok runOn_advance_finished, List.tail_cons, runOn_bind_of_ok (hb hpow)]
  rfl

theorem base (hne : next ss ≠ some (.operator .sub)) (hss : ss ≠ []) (h : Reads .primary n ss a) :
    Reads .power n ss a := by
  intro limit k rest hpow
  rw [runOn_unary_of_primary hne hss h, runOn_peek?_bind]
  split
  case h_1 hn => exact absurd hn hpow
  case h_2    => rfl

theorem number {x : α} (hs : s.token = .number x) : Reads .primary n [s] (.number x) := by
  intro limit k rest
  show runOn (primary (unary limit n)) _ _ = _
  rw [primary, runOn_peek?_bind]
  simp only [List.cons_append, next_cons, hs]
  exact runOn_bind_of_ok runOn_advance_finished

theorem constant {x : Constant} (hs : s.token = .constant x) :
    Reads .primary n [s] (.constant x) := by
  intro limit k rest
  show runOn (primary (unary limit n)) _ _ = _
  rw [primary, runOn_peek?_bind]
  simp only [List.cons_append, next_cons, hs]
  exact runOn_bind_of_ok runOn_advance_finished

theorem var {x : String} (hv : isVariableName x) (hs : s.token = .name x) :
    Reads .primary n [s] (.var x) := by
  intro limit k rest
  show runOn (primary (unary limit n)) _ _ = _
  rw [primary, runOn_peek?_bind]
  simp only [List.cons_append, next_cons, hs, hv, if_true]
  exact runOn_bind_of_ok runOn_advance_finished

theorem runOn_additive_closing (limit k : Nat) (rest : List (Spanned α)) (hc : c.token = .closing)
    (h : Reads .additive n ss a) :
    runOn (additive (unary limit n)) (.finished k) (ss ++ c :: rest) = .ok (a, c :: rest) := by
  have ⟨_, _, hrun⟩ := @h limit k (c :: rest) (by simp [hc])
    (by simp [hc, multiplicative?])
  exact hrun.trans (runOn_chainFrom_stop (by simp [hc, additive?]))

theorem runOn_closing (hc : c.token = .closing) :
    runOn closing (.finished k) (c :: rest) = .ok ((), rest) := by
  rw [closing, runOn_peek?_bind]
  simp only [next_cons, hc]
  exact runOn_advance_finished

theorem call {f : Elementary} (hs : s.token = .elementary f) (ho : o.token = .opening)
    (hc : c.token = .closing) (h : Reads .additive n ss a) :
    Reads .primary n (s :: o :: ss ++ [c]) (.call f [a]) := by
  intro limit k rest
  have ha := runOn_additive_closing limit k rest hc h
  show runOn (primary (unary limit n)) _ _ = _
  rw [primary, runOn_peek?_bind]
  simp only [List.cons_append, next_cons, hs, List.append_assoc, List.nil_append]
  rw [runOn_bind_of_ok runOn_advance_finished, List.tail_cons, argument, runOn_peek?_bind]
  simp only [next_cons, ho]
  rw [runOn_bind_of_ok runOn_advance_finished, List.tail_cons, runOn_bind_of_ok ha,
    runOn_peek?_bind]
  simp only [next_cons, hc]
  rw [runOn_bind_of_ok (runOn_closing hc)]
  rfl

theorem parens (ho : o.token = .opening) (hc : c.token = .closing) (h : Reads .additive n ss a) :
    Reads .primary n (o :: ss ++ [c]) a := by
  intro limit k rest
  have ha := runOn_additive_closing limit k rest hc h
  show runOn (primary (unary limit n)) _ _ = _
  rw [primary, runOn_peek?_bind]
  simp only [List.cons_append, next_cons, ho, List.append_assoc, List.nil_append]
  rw [runOn_bind_of_ok runOn_advance_finished, List.tail_cons, runOn_bind_of_ok ha,
    runOn_bind_of_ok (runOn_closing hc)]
  rfl

end Reads

theorem exists_head_of_primary {ts : List (Token α)} (d : Derives .primary n ts t) :
    ∃ o tail, ts = o :: tail ∧ o ≠ .operator .sub := by
  cases d <;> exact ⟨_, _, rfl, nofun⟩

theorem reads_of_derives {p : Phrase} {ts : List (Token α)} (d : Derives p n ts t)
    {ss : List (Spanned α)} (h : ss.map (·.token) = ts) : Reads p n ss t := by
  induction d generalizing ss with
  | sum ho _ _ iha ihb =>
    obtain ⟨_, _, rfl, hl, hr⟩ := List.map_eq_append_iff.mp h
    obtain ⟨_, _, rfl, hs, hu⟩ := List.map_eq_cons_iff.mp hr
    exact .sum ho hs (iha hl) (ihb hu)
  | addend _ ih => exact .addend (ih h)
  | product ho _ _ iha ihb =>
    obtain ⟨_, _, rfl, hl, hr⟩ := List.map_eq_append_iff.mp h
    obtain ⟨_, _, rfl, hs, hu⟩ := List.map_eq_cons_iff.mp hr
    exact .product ho hs (iha hl) (ihb hu)
  | factor _ ih => exact .factor (ih h)
  | negation _ ih =>
    obtain ⟨_, _, rfl, hs, hu⟩ := List.map_eq_cons_iff.mp h
    exact .negation hs (ih hu)
  | positive _ ih => exact ih h
  | power da _ iha ihb =>
    obtain ⟨_, _, rfl, hl, hr⟩ := List.map_eq_append_iff.mp h
    obtain ⟨_, _, rfl, hs, hu⟩ := List.map_eq_cons_iff.mp hr
    obtain ⟨o, _, rfl, ho⟩ := exists_head_of_primary da
    obtain ⟨_, _, rfl, rfl, _⟩ := List.map_eq_cons_iff.mp hl
    exact .power hs (by simpa using ho) (List.cons_ne_nil _ _) (iha hl) (ihb hu)
  | base da ih =>
    obtain ⟨o, _, rfl, ho⟩ := exists_head_of_primary da
    obtain ⟨_, _, rfl, rfl, _⟩ := List.map_eq_cons_iff.mp h
    exact .base (by simpa using ho) (List.cons_ne_nil _ _) (ih h)
  | number x =>
    obtain ⟨_, rfl, hs⟩ := List.map_eq_singleton_iff.mp h
    exact .number hs
  | constant c =>
    obtain ⟨_, rfl, hs⟩ := List.map_eq_singleton_iff.mp h
    exact .constant hs
  | var hv =>
    obtain ⟨_, rfl, hs⟩ := List.map_eq_singleton_iff.mp h
    exact .var hv hs
  | call f _ ih =>
    obtain ⟨_, _, rfl, hl, hr⟩ := List.map_eq_append_iff.mp h
    obtain ⟨_, _, rfl, hs, hl⟩ := List.map_eq_cons_iff.mp hl
    obtain ⟨_, _, rfl, ho, hl⟩ := List.map_eq_cons_iff.mp hl
    obtain ⟨_, rfl, hc⟩ := List.map_eq_singleton_iff.mp hr
    exact .call hs ho hc (ih hl)
  | parens _ ih =>
    obtain ⟨_, _, rfl, hl, hr⟩ := List.map_eq_append_iff.mp h
    obtain ⟨_, _, rfl, ho, hl⟩ := List.map_eq_cons_iff.mp hl
    obtain ⟨_, rfl, hc⟩ := List.map_eq_singleton_iff.mp hr
    exact .parens ho hc (ih hl)

theorem runOn_additive_of_derives (limit k : Nat)
    (d : Derives .additive n (ts.map (·.token)) t) :
    runOn (additive (unary limit n)) (.finished k) ts = .ok (t, []) := by
  have ⟨_, _, hrun⟩ := @reads_of_derives _ _ _ _ _ d _ rfl limit k [] (by simp) (by simp)
  rw [List.append_nil] at hrun
  exact hrun.trans (runOn_chainFrom_stop rfl)

end Parser

end InfixAlgebra
