import InfixAlgebra.Proofs.Fraction.Steps
import InfixAlgebra.Proofs.Ingredients.Canonical

namespace InfixAlgebra

open Metered

structure Fraction.MadeOf {α : Type} (I : Ingredients α) (f : Fraction α) : Prop where
  numerator   : f.numerator.MadeOf I
  denominator : f.denominator.MadeOf I

namespace Expr

variable {α : Type} [Scalar α] {I : Ingredients α} {t r a b : Expr α} {f g : Fraction α}
  {op : Operator} {x : α} {maxPower d : Nat} {config : Config α}

theorem MadeOf.times (ha : a.MadeOf I) (hb : b.MadeOf I) : (times a b).MadeOf I := by
  unfold Expr.times
  split
  case isTrue => exact hb
  case isFalse =>
    split
    case isTrue  => exact ha
    case isFalse => exact .binary .mul ha hb

theorem madeOf_cross (op : Operator) (hf : f.MadeOf I) (hg : g.MadeOf I) :
    (fractionAt.cross op f g).MadeOf I := by
  unfold fractionAt.cross
  split
  case isTrue  => exact ⟨.binary op hf.numerator hg.numerator, hf.denominator⟩
  case isFalse =>
    have hleft := hf.numerator.times hg.denominator
    have hright := hg.numerator.times hf.denominator
    exact ⟨.binary op hleft hright, hf.denominator.times hg.denominator⟩

omit [Scalar α] in
theorem MadeOf.addends (ht : t.MadeOf I) (positive : Bool) :
    ∀ p ∈ t.addends positive, p.2.MadeOf I := by
  induction t generalizing positive with
  | binary op a b iha ihb =>
    have ⟨ha, hb⟩ := ht.of_binary
    cases op with
    | add => exact List.forall_mem_append.mpr ⟨iha ha _, ihb hb _⟩
    | sub => exact List.forall_mem_append.mpr ⟨iha ha _, ihb hb _⟩
    | _   => exact List.forall_mem_singleton.mpr ht
  | _ => exact List.forall_mem_singleton.mpr ht

variable (hI : I.Closed)

include hI

theorem MadeOf.raised {k : Nat} (hk : k < 2 ^ 31) (ha : a.MadeOf I) : (raised a k).MadeOf I := by
  unfold Expr.raised
  split
  case isTrue => exact ha
  case isFalse =>
    split
    case isTrue  => exact .number hI.one
    case isFalse => exact .binary .pow ha (.number (hI.natural hk))

theorem madeOf_of_splitsTo (h : SplitsTo (fun t f => t.MadeOf I → f.MadeOf I) t f)
    (ht : t.MadeOf I) : f.MadeOf I := by
  have hone : (Expr.number 1 : Expr α).MadeOf I := .number hI.one
  cases h with
  | whole     => exact ⟨ht, hone⟩
  | whole_pow => exact ⟨ht, hone⟩
  | neg ha    =>
    have hf := ha ht.of_neg
    exact ⟨.neg hf.numerator, hf.denominator⟩
  | sum _ ha hb => exact madeOf_cross _ (ha ht.of_binary.1) (hb ht.of_binary.2)
  | mul ha hb =>
    have hf := ha ht.of_binary.1
    have hg := hb ht.of_binary.2
    exact ⟨hf.numerator.times hg.numerator, hf.denominator.times hg.denominator⟩
  | div ha hb =>
    have hf := ha ht.of_binary.1
    have hg := hb ht.of_binary.2
    exact ⟨hf.numerator.times hg.denominator, hf.denominator.times hg.numerator⟩
  | pow hk _ ha =>
    have hf := ha ht.of_binary.1
    have hlt := natAbs_lt_of_integerExponent? hk
    exact ⟨hf.numerator.raised hI hlt, hf.denominator.raised hI hlt⟩
  | inverse_pow hk _ ha =>
    have hf := ha ht.of_binary.1
    have hlt := natAbs_lt_of_integerExponent? hk
    exact ⟨hf.denominator.raised hI hlt, hf.numerator.raised hI hlt⟩

theorem MadeOf.fractionAt (h : Gives (t.fractionAt d) f) (ht : t.MadeOf I) : f.MadeOf I :=
  fractionAt_induct (fun _ _ => madeOf_of_splitsTo hI) h ht

theorem number_sign (positive : Bool) : I.number (sign positive) := by
  cases positive with
  | true  => exact hI.one
  | false => exact hI.neg hI.one

theorem MadeOf.leading (ht : t.MadeOf I) : I.number t.leading.1 ∧ t.leading.2.MadeOf I := by
  have hone : (Expr.number 1 : Expr α).MadeOf I := .number hI.one
  induction t with
  | number x => exact ⟨ht.of_number, hone⟩
  | neg a ih =>
    have ⟨hx, hrest⟩ := ih ht.of_neg
    exact ⟨hI.neg hx, hrest⟩
  | binary op a b iha _ =>
    have ⟨ha, hb⟩ := ht.of_binary
    cases op with
    | mul =>
      have ⟨hx, hrest⟩ := iha ha
      exact ⟨hx, hrest.times hb⟩
    | _ => exact ⟨hI.one, ht⟩
  | _ => exact ⟨hI.one, ht⟩

-- Quotients of coefficients are used if they are integers.
theorem madeOf_of_divideCoefficients? {parts : List (α × Expr α)}
    (h : t.divideCoefficients? x = some parts) (ht : t.MadeOf I) :
    ∀ p ∈ parts, I.number p.1 ∧ p.2.MadeOf I := by
  unfold divideCoefficients? at h
  dsimp only at h
  split at h
  case isFalse => cases h
  case isTrue hall =>
    cases h
    intro p hp
    have ⟨q, hq, hpq⟩ := List.mem_map.mp hp
    have hinteger := List.all_eq_true.mp hall q hq
    have ⟨s, hs, hsq⟩ := List.mem_map.mp hq
    have hrest := ((ht.addends true s hs).leading hI).2
    subst hpq hsq
    exact ⟨number_sign hI s.1, .binary .mul (.number (hI.integer hinteger)) hrest⟩

variable [NumberText α]

theorem MadeOf.distribute (h : Gives (distribute a b) r) (ha : a.MadeOf I) (hb : b.MadeOf I) :
    r.MadeOf I := by
  have hsteps := distributesTo_of_gives (fun _ _ => MadeOf.sum hI) (fun _ _ => MadeOf.product hI) h
  cases hsteps with
  | product _ _ hr => exact hr (.binary .mul ha hb)
  | sum hproducts hr =>
    have hmade : ∀ st ∈ a.addends true ×ˢ b.addends true, (Expr.mul st.1.2 st.2.2).MadeOf I := by
      intro (s, t) hst
      have ⟨hs, ht⟩ := List.mem_product.mp hst
      exact .binary .mul (ha.addends true s hs) (hb.addends true t ht)
    refine hr (forall_of_forall₂ (hproducts.imp fun (s, t) p hp hst => ?_) hmade)
    exact ⟨hp.1 ▸ number_sign hI _, hp.2 hst⟩

omit hI [Scalar α] [NumberText α] in
theorem madeOf_of_distributesTimes {n : Nat} (ha : a.MadeOf I) (ht : t.MadeOf I)
    (h : DistributesTimes (fun a b r => a.MadeOf I → b.MadeOf I → r.MadeOf I) a n t r) :
    r.MadeOf I := by
  induction h with
  | zero t        => exact ht
  | succ hs _ ih  => exact ih (hs ht ha)

omit [NumberText α] in
theorem madeOf_of_expandsTo
    (h : ExpandsTo maxPower (KeepsTo I) (KeepsTo I) (SumKeepsTo I)
      (fun a b r => a.MadeOf I → b.MadeOf I → r.MadeOf I) (KeepsTo I) t r) : KeepsTo I t r := by
  intro ht
  cases h with
  | canonical _ _ hr => exact hr ht
  | neg ha hr        => exact hr (.neg (ha ht.of_neg))
  | sum _ ha hb hr =>
    have ⟨ha', hb'⟩ := ht.of_binary
    exact hr (List.forall_mem_singleton.mpr ⟨hI.one, .binary _ (ha ha') (hb hb')⟩)
  | mul ha hb hr => exact hr (ha ht.of_binary.1) (hb ht.of_binary.2)
  | pow ha hr _  => exact hr (.binary .pow (ha ht.of_binary.1) ht.of_binary.2)
  | pow_sum _ _ _ ha hr =>
    have ha' := ha ht.of_binary.1
    exact madeOf_of_distributesTimes ha' ha' hr

theorem MadeOf.expandAt (h : Gives (t.expandAt maxPower d) r) (ht : t.MadeOf I) : r.MadeOf I :=
  expandAt_induct (fun _ _ => MadeOf.sum hI) (fun _ _ => MadeOf.product hI)
    (fun _ _ _ => MadeOf.canonicalAt hI) (fun _ _ _ => MadeOf.distribute hI)
    (fun _ _ => madeOf_of_expandsTo hI) h ht

theorem MadeOf.reduce (h : Gives (reduce f) r) (hf : f.MadeOf I) : r.MadeOf I := by
  cases reducesTo_of_gives (fun _ _ => MadeOf.sum hI) h with
  | quotient => exact .quotient hI hf.numerator hf.denominator
  | divided _ _ _ _ hparts hr =>
    exact hr (madeOf_of_divideCoefficients? hI hparts hf.numerator)

-- A fraction is made of what the expression is made of.
theorem MadeOf.rationalize (h : t.rationalize config = .ok r) (ht : t.MadeOf I) : r.MadeOf I := by
  have ⟨f, n, d, hf, hn, hd, hr⟩ := exists_of_rationalize h
  have hf := ht.fractionAt hI hf
  exact .reduce hI hr ⟨hf.numerator.expandAt hI hn, hf.denominator.expandAt hI hd⟩

end Expr

end InfixAlgebra
