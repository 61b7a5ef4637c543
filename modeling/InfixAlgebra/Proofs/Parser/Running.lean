import Mathlib
import InfixAlgebra.Expr.Parser
import InfixAlgebra.Proofs.Except

namespace InfixAlgebra

namespace Parser

variable {α β γ : Type}

-- What a parser makes of tokens: its result and the tokens that it leaves.
def runOn (p : Parser α β) (e : Ending) (ts : List (Spanned α)) :
    Except (Error α) (β × List (Spanned α)) :=
  (p.run e).run ts

def next (ts : List (Spanned α)) : Option (Token α) :=
  ts.head?.map (·.token)

@[simp]
theorem next_nil : next ([] : List (Spanned α)) = none :=
  rfl

@[simp]
theorem next_cons (s : Spanned α) (ts : List (Spanned α)) : next (s :: ts) = some s.token :=
  rfl

theorem exists_cons_of_next {ts : List (Spanned α)} {t : Token α} (h : next ts = some t) :
    ∃ s rest, ts = s :: rest ∧ s.token = t := by
  cases ts with
  | nil         => simp at h
  | cons s rest => exact ⟨s, rest, rfl, by simpa using h⟩

theorem eq_of_additive? {o : Token α} {op : Operator} (h : additive? o = some op) :
    o = .operator op ∧ (op = .add ∨ op = .sub) := by
  unfold additive? at h
  split at h <;> simp_all

theorem eq_of_multiplicative? {o : Token α} {op : Operator} (h : multiplicative? o = some op) :
    o = .operator op ∧ (op = .mul ∨ op = .div) := by
  unfold multiplicative? at h
  split at h <;> simp_all

variable {e : Ending} {ts rest : List (Spanned α)} {p : Parser α β} {f : β → Parser α γ}

@[simp]
theorem runOn_pure (b : β) : runOn (pure b : Parser α β) e ts = .ok (b, ts) :=
  rfl

theorem runOn_bind :
    runOn (p >>= f) e ts = (runOn p e ts >>= fun (b, rest) => runOn (f b) e rest) :=
  rfl

theorem runOn_bind_of_ok {b : β} (h : runOn p e ts = .ok (b, rest)) :
    runOn (p >>= f) e ts = runOn (f b) e rest := by
  rw [runOn_bind, h]
  rfl

theorem runOn_bind_of_error {x : Error α} (h : runOn p e ts = .error x) :
    runOn (p >>= f) e ts = .error x := by
  rw [runOn_bind, h]
  rfl

theorem exists_of_runOn_bind {c : γ} (h : runOn (p >>= f) e ts = .ok (c, rest)) :
    ∃ b mid, runOn p e ts = .ok (b, mid) ∧ runOn (f b) e mid = .ok (c, rest) := by
  have ⟨r, hp, hf⟩ := exists_of_bind_eq_ok h
  exact ⟨r.1, r.2, hp, hf⟩

@[simp]
theorem runOn_peek? : runOn (peek? : Parser α _) e ts = .ok (next ts, ts) :=
  rfl

theorem runOn_get_bind {f : List (Spanned α) → Parser α γ} :
    runOn (get >>= f) e ts = runOn (f ts) e ts :=
  rfl

theorem runOn_peek?_bind {f : Option (Token α) → Parser α γ} :
    runOn (peek? >>= f) e ts = runOn (f (next ts)) e ts :=
  rfl

theorem runOn_settle_finished {k : Nat} : runOn settle (.finished k) ts = .ok ((), ts) := by
  cases ts <;> rfl

theorem eq_of_runOn_settle {u : Unit} (h : runOn settle e ts = .ok (u, rest)) : rest = ts := by
  cases ts <;> cases e <;> cases h <;> rfl

theorem runOn_advance_finished {k : Nat} :
    runOn advance (.finished k) ts = .ok ((), ts.tail) :=
  runOn_settle_finished

theorem eq_tail_of_runOn_advance {u : Unit} (h : runOn advance e ts = .ok (u, rest)) :
    rest = ts.tail :=
  eq_of_runOn_settle h

theorem exists_runOn_refuse (x : Expected) :
    ∃ k, runOn (refuse x : Parser α β) e ts = .error (.unexpected k (next ts) x) := by
  cases ts <;> cases e <;> exact ⟨_, rfl⟩

theorem runOn_refuse_ne_ok {x : Expected} {r : β × List (Spanned α)} :
    runOn (refuse x) e ts ≠ .ok r := by
  have ⟨k, h⟩ := @exists_runOn_refuse α β e ts x
  simp [h]

theorem exists_cons_of_runOn_closing {u : Unit} (h : runOn closing e ts = .ok (u, rest)) :
    ∃ s, ts = s :: rest ∧ s.token = .closing := by
  rw [closing, runOn_peek?_bind] at h
  split at h
  case h_1 hn =>
    have ⟨s, tail, hts, hs⟩ := exists_cons_of_next hn
    have htail := eq_tail_of_runOn_advance h
    exact ⟨s, by simp [htail, hts], hs⟩
  case h_2 => exact absurd h runOn_refuse_ne_ok

end Parser

end InfixAlgebra
