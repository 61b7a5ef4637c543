import InfixAlgebra.Proofs.Parser.Prefix
import InfixAlgebra.Proofs.Parser.Running

namespace InfixAlgebra

def Ending.position : Ending → Nat
  | finished k => k
  | stray k _  => k

namespace Parser

-- Parsers look one token ahead. So what they make of tokens depends on those that they read, on the
-- one after these, and on nothing else.

variable {α β γ : Type} {e : Ending} {ts ss rest : List (Spanned α)}

def Stands (e : Ending) (ts : List (Spanned α)) : Prop :=
  ts = [] → ∃ k, e = .finished k

def place (e : Ending) : List (Spanned α) → Nat
  | []     => e.position
  | t :: _ => t.start

theorem stands_cons (s : Spanned α) : Stands e (s :: ts) :=
  nofun

theorem eq_nil_of_not_stands (h : ¬Stands e ts) : ts = [] ∧ ∃ k c, e = .stray k c := by
  cases ts with
  | cons s ts => exact absurd (stands_cons s) h
  | nil =>
    cases e with
    | finished k => exact absurd (fun _ => ⟨k, rfl⟩) h
    | stray k c  => exact ⟨rfl, k, c, rfl⟩

theorem runOn_settle_of_stands (h : Stands e ts) : runOn settle e ts = .ok ((), ts) := by
  cases ts with
  | cons s ts => cases e <;> rfl
  | nil =>
    obtain ⟨k, rfl⟩ := h rfl
    rfl

theorem runOn_refuse (x : Expected) :
    runOn (refuse x : Parser α β) e ts = .error (.unexpected (place e ts) (next ts) x) := by
  cases ts <;> cases e <;> rfl

theorem next_append_congr {rest' : List (Spanned α)} (h : next rest' = next rest) :
    next (ss ++ rest') = next (ss ++ rest) := by
  cases ss with
  | nil       => exact h
  | cons s ss => rfl

-- The tokens `ss` are read as `b`, whenever `o` is what comes next.
def Takes (p : Parser α β) (ss : List (Spanned α)) (o : Option (Token α)) (b : β) : Prop :=
  ∀ ⦃e rest⦄, Stands e rest → next rest = o → runOn p e (ss ++ rest) = .ok (b, rest)

def Refuses (p : Parser α β) (ss : List (Spanned α)) (o : Option (Token α)) (x : Expected) : Prop :=
  ∀ ⦃e rest⦄, Stands e rest → next rest = o →
    runOn p e (ss ++ rest) = .error (.unexpected (place e rest) o x)

-- What running a parser on tokens comes to. It goes on without an error only as long as the tokens
-- that it has read satisfy `V`, or until it is in too deep.
inductive Outcome (limit : Nat) (V : List (Token α) → Prop) (p : Parser α β) (e : Ending) :
    List (Spanned α) → Prop
  | reads (ss rest : List (Spanned α)) {b : β} (hs : Stands e rest)
    (ht : Takes p ss (next rest) b) :
    Outcome limit V p e (ss ++ rest)
  | refuses (ss rest : List (Spanned α)) {x : Expected} (hs : Stands e rest)
    (hv : V (ss.map (·.token))) (hr : Refuses p ss (next rest) x) : Outcome limit V p e (ss ++ rest)
  | stray {ts : List (Spanned α)} {k : Nat} {c : Char} (he : e = .stray k c)
    (hv : V (ts.map (·.token))) (h : runOn p e ts = .error (.stray k c)) : Outcome limit V p e ts
  | tooDeep {ts : List (Spanned α)} (h : runOn p e ts = .error (.tooDeep limit)) :
    Outcome limit V p e ts

variable {p : Parser α β} {f : β → Parser α γ} {o : Option (Token α)} {b : β} {x : Expected}
  {limit : Nat} {V W : List (Token α) → Prop}

theorem Takes.bind {us : List (Spanned α)} {d : γ} (h : Takes p ss (next (us ++ rest)) b)
    (hf : Takes (f b) us (next rest) d) : Takes (p >>= f) (ss ++ us) (next rest) d := by
  intro e rest' hs hn
  have hs' : Stands e (us ++ rest') := fun hnil => hs (List.append_eq_nil_iff.mp hnil).2
  rw [List.append_assoc, runOn_bind_of_ok (h hs' (next_append_congr hn))]
  exact hf hs hn

theorem Takes.bind_refuses {us : List (Spanned α)} (h : Takes p ss (next (us ++ rest)) b)
    (hf : Refuses (f b) us (next rest) x) : Refuses (p >>= f) (ss ++ us) (next rest) x := by
  intro e rest' hs hn
  have hs' : Stands e (us ++ rest') := fun hnil => hs (List.append_eq_nil_iff.mp hnil).2
  rw [List.append_assoc, runOn_bind_of_ok (h hs' (next_append_congr hn))]
  exact hf hs hn

theorem Refuses.bind (h : Refuses p ss o x) : Refuses (p >>= f) ss o x :=
  fun _ _ hs hn => runOn_bind_of_error (h hs hn)

namespace Outcome

theorem mono (h : Outcome limit V p e ts) (hvw : ∀ {us}, V us → W us) : Outcome limit W p e ts := by
  cases h with
  | reads ss rest hs ht      => exact .reads ss rest hs ht
  | refuses ss rest hs hv hr => exact .refuses ss rest hs (hvw hv) hr
  | stray he hv h            => exact .stray he (hvw hv) h
  | tooDeep h                => exact .tooDeep h

theorem pure (b : β) (hs : Stands e ts) : Outcome limit V (pure b) e ts :=
  .reads [] ts hs fun _ _ _ _ => rfl

theorem refuse (x : Expected) (hs : Stands e ts) (hv : V []) :
    Outcome limit V (refuse x : Parser α β) e ts :=
  .refuses [] ts hs hv fun _ _ _ hn => hn ▸ runOn_refuse x

theorem refuse_bind (x : Expected) (hs : Stands e ts) (hv : V []) :
    Outcome limit V (Parser.refuse x >>= f) e ts :=
  .refuses [] ts hs hv (Refuses.bind fun _ _ _ hn => hn ▸ runOn_refuse x)

theorem advance {s : Spanned α} (hv : V [s.token]) : Outcome limit V advance e (s :: ts) := by
  by_cases hs : Stands e ts
  case pos => exact .reads [s] ts hs fun _ _ hs _ => runOn_settle_of_stands hs
  case neg =>
    obtain ⟨rfl, k, c, rfl⟩ := eq_nil_of_not_stands hs
    exact .stray rfl hv rfl

-- What goes on after some tokens have been read has to satisfy `V` together with them.
theorem bind (h : Outcome limit V p e ts)
    (hf : ∀ {ss rest b}, ts = ss ++ rest → Stands e rest → runOn p e ts = .ok (b, rest) →
      Outcome limit (fun us => V (ss.map (·.token) ++ us)) (f b) e rest) :
    Outcome limit V (p >>= f) e ts := by
  cases h with
  | refuses ss rest hs hv hr => exact .refuses ss rest hs hv hr.bind
  | stray he hv h            => exact .stray he hv (runOn_bind_of_error h)
  | tooDeep h                => exact .tooDeep (runOn_bind_of_error h)
  | reads ss rest hs ht =>
    have hp := ht hs rfl
    have hrest := hf rfl hs hp
    cases hrest with
    | reads us rest hs' ht' =>
      rw [← List.append_assoc]
      exact .reads (ss ++ us) rest hs' (ht.bind ht')
    | refuses us rest hs' hv' hr' =>
      rw [← List.append_assoc]
      exact .refuses (ss ++ us) rest hs' (by simpa using hv') (ht.bind_refuses hr')
    | stray he hv' h' => exact .stray he (by simpa using hv') (by rwa [runOn_bind_of_ok hp])
    | tooDeep h'      => exact .tooDeep (by rwa [runOn_bind_of_ok hp])

theorem peek?_bind {f : Option (Token α) → Parser α β} (hs : Stands e ts)
    (h : Outcome limit V (f (next ts)) e ts) : Outcome limit V (peek? >>= f) e ts := by
  refine bind (.reads [] ts hs fun _ _ _ hn => hn ▸ runOn_peek?) fun hts _ hrun => ?_
  cases hrun
  obtain rfl := List.self_eq_append_left.mp hts
  exact h

theorem advance_bind {s : Spanned α} {f : Unit → Parser α β} (hv : V [s.token])
    (h : Stands e ts → Outcome limit (fun us => V (s.token :: us)) (f ()) e ts) :
    Outcome limit V (Parser.advance >>= f) e (s :: ts) := by
  refine (advance hv).bind fun {ss _ _} hts hs hrun => ?_
  rw [eq_tail_of_runOn_advance hrun, List.tail_cons] at hts hs ⊢
  obtain rfl : [s] = ss := List.append_cancel_right hts
  exact h hs

end Outcome

end Parser

end InfixAlgebra
