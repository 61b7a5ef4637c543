import InfixAlgebra.Proofs.Limits.Evaluation
import InfixAlgebra.Proofs.Parser.ErrorPosition
import InfixAlgebra.Proofs.Transport.Derivative
import InfixAlgebra.Proofs.Transport.Fraction
import InfixAlgebra.Source

namespace InfixAlgebra

namespace Parser

variable {α : Type} {limit limit' : Nat} (h : limit ≤ limit')

include h

theorem Below.checkDepth (t : Expr α) :
    Below limit (t.checkDepth limit : Parser α Unit) (t.checkDepth limit') := by
  intro e ts
  by_cases hd : t.depth ≤ limit
  case pos =>
    rw [runOn_checkDepth_of_le hd, runOn_checkDepth_of_le (Nat.le_trans hd h)]
    exact .inr rfl
  case neg => exact .inl (runOn_checkDepth_of_lt (Nat.lt_of_not_le hd))

theorem Below.expression : Below (α := α) limit (expression limit) (expression limit') := by
  refine .bind_right fun _ => (Below.unary limit limit' h).additive.bind fun t => ?_
  refine .bind_right fun o => ?_
  split
  case h_1 => exact .bind_right fun _ => (Below.checkDepth h t).bind fun _ => .refl _
  case h_2 => exact (Below.checkDepth h t).bind fun _ => .refl _

end Parser

variable {α β : Type} {l l' : Limits}

namespace Expr

theorem below_parse [NumberText α] (h : l ≤ l') (text : String) :
    l.Below (parse (α := α) l.maxDepth text) (parse l'.maxDepth text) := by
  let lexing := Lexing.ofText (α := α) text
  suffices hrun : l.Below
      (Parser.runOn (Parser.expression l.maxDepth) lexing.ending lexing.tokens)
      (Parser.runOn (Parser.expression l'.maxDepth) lexing.ending lexing.tokens) from
    hrun.map fun r : Expr α × List (Spanned α) => r.1
  generalize lexing.tokens = ts
  rcases Parser.Below.expression h.1 lexing.ending ts with hr | hr
  case inl =>
    rw [hr]
    exact .tooDeep _
  case inr =>
    rw [← hr]
    have hout := Parser.Outcome.expression l.maxDepth lexing.ending ts
    cases hout with
    | reads ss rest hs ht =>
      rw [ht hs rfl]
      exact .ok _
    | refuses ss rest hs hv hf =>
      rw [hf hs rfl]
      exact .error rfl
    | stray he hv hx =>
      rw [hx]
      exact .error rfl
    | tooDeep hx =>
      rw [hx]
      exact .tooDeep _

end Expr

def Config.within (c : Config α) (l : Limits) : Config α :=
  { c with toLimits := l }

-- Limits only cut off what is asked for: wider ones give the same result, unless it was a limit
-- that there was no result for, and an error about a limit is about one in force.
structure OnlyCutOff (request : Config α → Except (Error α) β) : Prop where
  wider {c : Config α} {l : Limits} : c.toLimits ≤ l →
    (∀ x, request c = .error x → x.isLimit = false) → request (c.within l) = request c
  tooDeep {c : Config α} {k : Nat} : request c = .error (.tooDeep k) → k = c.maxDepth
  outOfOperations {c : Config α} {k : Nat} :
    request c = .error (.outOfOperations k) → k = c.maxOperations

theorem onlyCutOff_of_below {request : Config α → Except (Error α) β}
    (h : ∀ (c : Config α) (l : Limits), c.toLimits ≤ l →
      c.toLimits.Below (request c) (request (c.within l))) : OnlyCutOff request where
  wider {c l} hl hx        := (h c l hl).eq_of_not_isLimit hx
  tooDeep {c _} hx         := (h c c.toLimits c.toLimits.le_refl).eq_maxDepth hx
  outOfOperations {c _} hx := (h c c.toLimits c.toLimits.le_refl).eq_maxOperations hx

section Requests

variable [Scalar α] [NumberText α] {c : Config α} (h : c.toLimits ≤ l)

include h

namespace Expr

-- What corresponds to itself is the same under wider limits.
omit [Scalar α] [NumberText α] h in
theorem below_of_mirrored {g : β → β} {r r' : Expr α → Except (Error α) β} {t : Expr α}
    (ht : Mirrored l g (r' t) (r (t.map id))) (hg : g = id) : l.Below (r t) (r' t) := by
  rw [map_id] at ht
  exact .of_mirrored ht hg

omit [Scalar α] [NumberText α] in
theorem below_checkDepth (t : Expr α) :
    c.toLimits.Below (t.checkDepth c.maxDepth) (t.checkDepth l.maxDepth) :=
  below_of_mirrored (mirrored_checkDepth h t) rfl

theorem below_canonical (t : Expr α) :
    c.toLimits.Below (t.canonical c) (t.canonical (c.within l)) :=
  below_of_mirrored (mirrored_canonical .id h t) (funext map_id)

theorem below_differentiate (name : String) (t : Expr α) :
    c.toLimits.Below (t.differentiate c name) (t.differentiate (c.within l) name) :=
  below_of_mirrored (mirrored_differentiate .id h name t) (funext map_id)

theorem below_rationalize (t : Expr α) :
    c.toLimits.Below (t.rationalize c) (t.rationalize (c.within l)) :=
  have hpower : (c.within l).maxExpandPower = c.maxExpandPower := rfl
  below_of_mirrored (mirrored_rationalize .id h hpower t) (funext map_id)

end Expr

namespace Source

omit [Scalar α] in
theorem below_resolve (s : Source α) :
    c.toLimits.Below (s.resolve c) (s.resolve (c.within l)) := by
  cases s with
  | text s => exact Expr.below_parse h s
  | tree t => exact (Expr.below_checkDepth h t).bind fun _ => .ok t

theorem below_evaluate (scope : Scope α) (s : Source α) :
    c.toLimits.Below (s.evaluate c scope) (s.evaluate (c.within l) scope) :=
  (below_resolve h s).bind fun t => (t.below_evaluateAt h scope 1).run

theorem below_differentiate (name : String) (s : Source α) :
    c.toLimits.Below (s.differentiate c name) (s.differentiate (c.within l) name) :=
  (below_resolve h s).bind (Expr.below_differentiate h name)

theorem below_simplify (scope : Scope α) (s : Source α) :
    c.toLimits.Below (s.simplify c scope) (s.simplify (c.within l) scope) := by
  refine (below_resolve h s).bind fun t => ?_
  unfold Expr.simplify
  split
  case isTrue  => exact (Expr.below_canonical h t).map Simplified.expr
  case isFalse => exact (t.below_evaluateAt h scope 1).run.map Simplified.value

theorem below_rationalize (s : Source α) :
    c.toLimits.Below (s.rationalize c) (s.rationalize (c.within l)) :=
  (below_resolve h s).bind (Expr.below_rationalize h)

end Source

end Requests

-- Limits only cut off, whatever is asked for.
theorem limits_only_cut_off [Scalar α] [NumberText α] (text : String) (s : Source α)
    (scope : Scope α) (name : String) :
    OnlyCutOff (fun c : Config α => Expr.parse (α := α) c.maxDepth text) ∧
    OnlyCutOff (fun c => s.evaluate c scope) ∧
    OnlyCutOff (fun c => s.differentiate c name) ∧
    OnlyCutOff (fun c => s.simplify c scope) ∧
    OnlyCutOff (fun c => s.rationalize c) :=
  ⟨onlyCutOff_of_below fun _ _ h => Expr.below_parse h text,
    onlyCutOff_of_below fun _ _ h => Source.below_evaluate h scope s,
    onlyCutOff_of_below fun _ _ h => Source.below_differentiate h name s,
    onlyCutOff_of_below fun _ _ h => Source.below_simplify h scope s,
    onlyCutOff_of_below fun _ _ h => Source.below_rationalize h s⟩

end InfixAlgebra
