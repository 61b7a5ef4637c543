import InfixAlgebra.Proofs.MultipliedOut.Shape
import InfixAlgebra.Proofs.Normal.Idempotence

namespace InfixAlgebra

open Metered

variable {α : Type} [Scalar α] [Scalar.Regular α] [Scalar.Counting α] {maxPower : Nat}

namespace Expr

variable [NumberText α] {t r s a b : Expr α} {x : α} {addends : List (α × Expr α)} {d : Nat}

-- What sums and products do with what is multiplied out.

def SumsOut (maxPower : Nat) (addends : List (α × Expr α)) (r : Expr α) : Prop :=
  (∀ p ∈ addends, p.2.HasTerms (.multipliedOut α maxPower)) → r.SumsUp (.multipliedOut α maxPower)

structure MultipliesOut (maxPower : Nat) (t r : Expr α) : Prop where
  term : (Term.ofExpr t).Has (.multipliedOut α maxPower) →
    r.SumsUp (.multipliedOut α maxPower) ∧ ¬r.isSum
  sum : ∀ s, t.factors = [s] → s.isSum → s.HasTerms (.multipliedOut α maxPower) →
    r.SumsUp (.multipliedOut α maxPower)

omit [Scalar.Regular α] [Scalar.Counting α] in
theorem sumsOut_of_sumsTo {Q : Expr α → Expr α → Prop} (h : SumsTo Q addends r) :
    SumsOut maxPower addends r := by
  intro haddends
  refine (h.sumsUp fun u hu => ?_).2
  have ⟨p, hp, hu⟩ := List.mem_flatMap.mp hu
  exact haddends p hp p.1 trivial u hu

theorem multipliesOut_of_multipliesTo (h : MultipliesTo (SumsOut maxPower) t r) :
    MultipliesOut maxPower t r where
  term ht := by
    have hgroup := Power.product_group ht.product
    obtain ⟨_, rfl⟩ | ⟨hne, rfl⟩ := h.eq_of_product hgroup
    · exact ⟨sumsUp_zero, nofun⟩
    · have hu : (Term.mk t.coefficient (Power.group t.factors)).Has _ := ⟨trivial, hgroup⟩
      exact ⟨sumsUp_toExpr hu hne, (multipliedOut_toExpr hu hne).2⟩
  sum s hf hs hsum :=
    h.sumsUp (fun _ hu hr => hr (List.forall_mem_singleton.mpr hu)) trivial
      (.inr ⟨s, hf, hs, hsum⟩)

theorem sumsOut_of_gives (h : Gives (sum addends) r) : SumsOut maxPower addends r :=
  sum_induct (fun _ _ => sumsOut_of_sumsTo) (fun _ _ => multipliesOut_of_multipliesTo) h

theorem multipliesOut_of_gives (h : Gives (product t) r) : MultipliesOut maxPower t r :=
  have ⟨n, _, hr⟩ := h.exists_of_bind
  product_induct (fun _ _ => sumsOut_of_sumsTo) (fun _ _ => multipliesOut_of_multipliesTo) n t r hr

namespace MultipliedOut

omit [Scalar.Counting α] in
theorem of_sum {op : Operator} (ho : op = .add ∨ op = .sub)
    (ha : a.MultipliedOut (Power.Solid maxPower)) (hb : b.MultipliedOut (Power.Solid maxPower))
    (h : SumsOut maxPower [(1, binary op a b)] r) : r.MultipliedOut (Power.Solid maxPower) :=
  (h (List.forall_mem_singleton.mpr (ha.hasTerms.sum ho hb.hasTerms))).multipliedOut

end MultipliedOut

structure CanonicalizesOut (maxPower : Nat) (t r : Expr α) : Prop where
  number : ∀ x, t = .number x → r = .number x
  multipliedOut : t.MultipliedOut (Power.Solid maxPower) →
    r.MultipliedOut (Power.Solid maxPower) ∧ (¬t.isSum → ¬r.isSum)

omit [Scalar.Regular α] [Scalar.Counting α] [NumberText α] in
theorem multipliedOut_power (ha : a.MultipliedOut (Power.Solid maxPower))
    (hx : ¬x == 1 → Power.Solid maxPower a x) :
    (power a (.number x)).MultipliedOut (Power.Solid maxPower) := by
  rcases power_cases a (.number x) with ⟨hreduced, hr⟩ | ⟨_, hr⟩ | ⟨y, hr⟩ <;> rw [hr]
  · exact .pow ha (hx hreduced.exponent)
  · exact ha
  · exact .number y

omit [Scalar.Counting α] in
theorem canonicalizesOut_of_becomes
    (h : Becomes (MultipliesOut maxPower) (SumsOut maxPower) (CanonicalizesOut maxPower) t r) :
    CanonicalizesOut maxPower t r := by
  cases h with
  | number x   => exact ⟨fun _ h => h, fun h => ⟨h, id⟩⟩
  | constant c => exact ⟨nofun, fun h => ⟨h, id⟩⟩
  | var name   => exact ⟨nofun, fun h => ⟨h, id⟩⟩
  | @neg a a' r ha hr =>
    refine ⟨nofun, fun ht => ?_⟩
    cases ht with
    | neg ht hfactors =>
      have ⟨ha', hns⟩ := ha.multipliedOut ht
      have ⟨hsum, hns⟩ := hr.term (ha'.has_neg (hns (not_isSum_of_factors hfactors)))
      exact ⟨hsum.multipliedOut, fun _ => hns⟩
  | @sum op a _ b _ _ ho ha hb hr =>
    refine ⟨nofun, fun ht => ?_⟩
    have hsum : (binary op a b).isSum := by rcases ho with rfl | rfl <;> rfl
    cases ht with
    | sum _ hta htb =>
      have ha' := (ha.multipliedOut hta).1
      have hb' := (hb.multipliedOut htb).1
      exact ⟨.of_sum ho ha' hb' hr, fun hns => absurd hsum hns⟩
    | mul => cases hsum
    | pow => cases hsum
  | mul ha hb hr =>
    refine ⟨nofun, fun ht => ?_⟩
    cases ht with
    | mul hta htb hfactors =>
      have ⟨hfa, hfb⟩ := List.forall_mem_append.mp hfactors
      have ⟨ha', hna⟩ := ha.multipliedOut hta
      have ⟨hb', hnb⟩ := hb.multipliedOut htb
      have ⟨hsum, hns⟩ := hr.term (ha'.has_mul (hna (not_isSum_of_factors hfa)) hb'
        (hnb (not_isSum_of_factors hfb)))
      exact ⟨hsum.multipliedOut, fun _ => hns⟩
    | sum ho => rcases ho with ho | ho <;> cases ho
  | div =>
    refine ⟨nofun, fun ht => ?_⟩
    cases ht with
    | sum ho => rcases ho with ho | ho <;> cases ho
  | @pow a a' b b' ha hb =>
    refine ⟨nofun, fun ht => ?_⟩
    cases ht with
    | sum ho => rcases ho with ho | ho <;> cases ho
    | @pow _ x hta hx =>
      obtain rfl := hb.number x rfl
      have ⟨ha', hns⟩ := ha.multipliedOut hta
      constructor
      · refine multipliedOut_power ha' fun hne => ?_
        exact ⟨hx.positive, fun h => absurd h hne, fun hs => hx.beyond (by_contra fun h => hns h hs)⟩
      · intro _
        rcases power_cases a' (.number x) with ⟨_, hr⟩ | ⟨hone, hr⟩ | ⟨y, hr⟩ <;> rw [hr]
        · nofun
        · exact hns (hx.factor hone).2
        · nofun
  | @call f _ args' _ =>
    refine ⟨nofun, fun _ => ?_⟩
    rcases application_cases f args' with ⟨_, hr⟩ | ⟨x, hr⟩ <;> rw [hr]
    · exact ⟨.call f args', fun _ => nofun⟩
    · exact ⟨.number x, fun _ => nofun⟩

theorem canonicalizesOut_of_gives (h : Gives (t.canonicalAt d) r) : CanonicalizesOut maxPower t r :=
  canonicalAt_induct (fun _ _ => sumsOut_of_sumsTo) (fun _ _ => multipliesOut_of_multipliesTo)
    (fun _ _ => canonicalizesOut_of_becomes) d h

end Expr

end InfixAlgebra
