import InfixAlgebra.Proofs.Canonical.Steps

namespace InfixAlgebra

namespace Metered

variable {α β γ δ : Type}

-- Two computations that do not give different results, whatever the limits of each and however much
-- either has spent before.
def Agree (x y : Metered α β) : Prop :=
  ∀ b b', Gives x b → Gives y b' → b = b'

namespace Agree

variable {x y : Metered α β} {f g : β → Metered α γ}

theorem eq {b b' : β} (h : Agree x y) (hx : Gives x b) (hy : Gives y b') : b = b' :=
  h b b' hx hy

theorem pure (b : β) : Agree (Pure.pure b : Metered α β) (Pure.pure b) :=
  fun _ _ h h' => h.of_pure.trans h'.of_pure.symm

theorem unit (x y : Metered α Unit) : Agree x y :=
  fun _ _ _ _ => rfl

theorem exhausted_left (y : Metered α β) : Agree exhausted y :=
  fun _ _ h => absurd h not_gives_exhausted

theorem exhausted_right (x : Metered α β) : Agree x exhausted :=
  fun _ _ _ h => absurd h not_gives_exhausted

theorem bind (h : Agree x y) (hf : ∀ b, Agree (f b) (g b)) : Agree (x >>= f) (y >>= g) := by
  intro c c' hx hy
  have ⟨b, hb, hc⟩ := hx.exists_of_bind
  have ⟨b', hb', hc'⟩ := hy.exists_of_bind
  rw [← h.eq hb hb'] at hc'
  exact (hf b).eq hc hc'

theorem mapM {f g : β → Metered α γ} (h : ∀ b, Agree (f b) (g b)) (bs : List β) :
    Agree (bs.mapM f) (bs.mapM g) := by
  induction bs with
  | nil => exact pure []
  | cons b bs ih =>
    rw [List.mapM_cons, List.mapM_cons]
    exact (h b).bind fun c => ih.bind fun cs => pure (c :: cs)

end Agree

end Metered

open Metered

namespace Expr

variable {α : Type} [Scalar α] [NumberText α] {p q : Expr α → Metered α (Expr α)}
  {s s' : List (α × Expr α) → Metered α (Expr α)} {terms : List (Term α)}

omit [NumberText α] in
theorem agree_foldlM_collect {β : Type} (scale : β → α) (expr : β → Expr α) (xs : List β) :
    Agree (xs.foldlM (fun ts x => collect (scale x) (expr x) ts) terms)
      (xs.foldlM (fun ts x => collect (scale x) (expr x) ts) terms) :=
  fun _ _ h h' => (eq_of_gives_foldlM_collect h).trans (eq_of_gives_foldlM_collect h').symm

omit [NumberText α] in
theorem agree_settle (h : ∀ t, Agree (p t) (q t)) (n m : Nat) (terms : List (Term α)) :
    Agree (settle p n terms) (settle q m terms) := by
  induction n generalizing m terms with
  | zero => exact .exhausted_left _
  | succ n ih =>
    cases m with
    | zero   => exact .exhausted_right _
    | succ m =>
      by_cases hnil : Term.scaled terms = []
      case pos =>
        rw [settle_of_eq_nil hnil, settle_of_eq_nil hnil]
        exact .pure _
      case neg =>
        rw [settle_of_ne_nil hnil, settle_of_ne_nil hnil]
        refine (Agree.mapM (fun u : Term α => h u.toExpr) _).bind fun products => ?_
        exact (agree_foldlM_collect _ _ _).bind fun terms => ih m terms

theorem agree_sumWith (h : ∀ t, Agree (p t) (q t)) (n m : Nat) (addends : List (α × Expr α)) :
    Agree (sumWith p n addends) (sumWith q m addends) := by
  refine (agree_foldlM_collect _ _ _).bind fun terms => ?_
  refine (agree_settle h n m terms).bind fun terms => ?_
  exact (Agree.unit _ _).bind fun _ => .pure _

theorem agree_spread (h : ∀ addends, Agree (s addends) (s' addends)) (u : Term α) :
    Agree (spread s u) (spread s' u) := by
  unfold spread
  split
  case isFalse => exact .pure u
  case isTrue =>
    split
    case h_1 => exact (h _).bind fun r => .pure _
    case h_2 => exact .pure u

theorem agree_productWithin (n m : Nat) (t : Expr α) :
    Agree (productWithin n t) (productWithin m t) := by
  induction n generalizing m t with
  | zero => exact .exhausted_left _
  | succ n ih =>
    cases m with
    | zero   => exact .exhausted_right _
    | succ m =>
      have hsum (addends : List (α × Expr α)) := agree_sumWith (ih m) n m addends
      rw [productWithin, productWithin]
      refine (Agree.unit _ _).bind fun _ => ?_
      split
      case isTrue => exact .pure _
      case isFalse =>
        refine (agree_spread hsum _).bind fun u => (Agree.unit _ _).bind fun _ => ?_
        split
        case h_1 =>
          split
          case isTrue  => exact hsum _
          case isFalse => exact .pure _
        case h_2 => exact .pure _

theorem agree_product (t : Expr α) : Agree (product t) (product t) := by
  intro r r' h h'
  have ⟨n, _, hr⟩ := h.exists_of_bind
  have ⟨m, _, hr'⟩ := h'.exists_of_bind
  exact (agree_productWithin n m t).eq hr hr'

theorem agree_sum (addends : List (α × Expr α)) : Agree (sum addends) (sum addends) := by
  intro r r' h h'
  have ⟨n, _, hr⟩ := h.exists_of_bind
  have ⟨m, _, hr'⟩ := h'.exists_of_bind
  exact (agree_sumWith (agree_productWithin n m) n m addends).eq hr hr'

-- Limits decide on whether there is a canonical form, not on what it is.

mutual

theorem agree_canonicalAt (d d' : Nat) :
    (t : Expr α) → Agree (t.canonicalAt d) (t.canonicalAt d')
  | number x      => (Agree.unit _ _).bind fun _ => .pure _
  | constant c    => (Agree.unit _ _).bind fun _ => .pure _
  | var name      => (Agree.unit _ _).bind fun _ => .pure _
  | neg a         =>
    (Agree.unit _ _).bind fun _ => (agree_canonicalAt _ _ a).bind fun _ => agree_product _
  | binary op a b => by
    refine (Agree.unit _ _).bind fun _ => (agree_canonicalAt _ _ a).bind fun a' =>
      (agree_canonicalAt _ _ b).bind fun b' => ?_
    cases op with
    | add => exact agree_sum _
    | sub => exact agree_sum _
    | mul => exact agree_product _
    | div => exact .pure _
    | pow => exact .pure _
  | call f args   =>
    (Agree.unit _ _).bind fun _ => (agree_canonicalAllAt _ _ args).bind fun _ => .pure _
termination_by structural t => t

theorem agree_canonicalAllAt (d d' : Nat) :
    (ts : List (Expr α)) → Agree (canonicalAllAt ts d) (canonicalAllAt ts d')
  | []      => .pure []
  | t :: ts =>
    (agree_canonicalAt _ _ t).bind fun _ => (agree_canonicalAllAt _ _ ts).bind fun _ => .pure _
termination_by structural ts => ts

end

end Expr

end InfixAlgebra
