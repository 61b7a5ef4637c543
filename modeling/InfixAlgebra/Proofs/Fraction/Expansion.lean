import InfixAlgebra.Proofs.Fraction.Powers

namespace InfixAlgebra

open Metered Exact

variable {K : Type} [Field K] [LinearOrder K] {I : Interpretation K} {values : String → Exact I}

theorem Exact.pow_eq_some {x : Exact I} {u : K} (h : x = some u) (n : ℕ) :
    x ^ n = some (u ^ n) := by
  induction n with
  | zero      => rw [pow_zero, pow_zero]; rfl
  | succ n ih => rw [pow_succ, pow_succ]; exact mul_eq_some_iff.mpr ⟨u ^ n, u, ih, h, rfl⟩

namespace Expr

variable {t r a b : Expr (Exact I)}

theorem sign_mul_sign (p q : Bool) : (sign p * sign q : Exact I) = sign (p == q) := by
  cases p <;> cases q <;> simp [sign, Exact.neg_mul, Exact.neg_neg]

theorem sign_not (p : Bool) : (sign (!p) : Exact I) = -sign p := by
  cases p <;> simp [sign, Exact.neg_neg]

def denoteSigned (values : String → Exact I) (addends : List (Bool × Expr (Exact I))) : Exact I :=
  (addends.map fun (p, s) => sign p * s.denote values).sum

-- A sum stands for the sum of its addends.
theorem denoteSigned_addends (p : Bool) (t : Expr (Exact I)) :
    denoteSigned values (t.addends p) = sign p * t.denote values := by
  have single (p : Bool) (t : Expr (Exact I)) :
      denoteSigned values [(p, t)] = sign p * t.denote values := by
    rw [denoteSigned, List.map_singleton, List.sum_singleton]
  have append (as bs : List (Bool × Expr (Exact I))) :
      denoteSigned values (as ++ bs) = denoteSigned values as + denoteSigned values bs := by
    rw [denoteSigned, List.map_append, List.sum_append]
    rfl
  induction t generalizing p with
  | binary op a b iha ihb =>
    cases op with
    | add =>
      rw [addends, append, iha, ihb, ← Exact.mul_add]
      rfl
    | sub =>
      rw [addends, append, iha, ihb, sign_not, Exact.neg_mul, ← Exact.mul_neg, ← Exact.mul_add,
        ← Exact.sub_eq_add_neg]
      rfl
    | _ => exact single p _
  | _ => exact single p _

theorem refines_mul_denoteSigned (x : Exact I) (bs : List (Bool × Expr (Exact I))) :
    Refines (x * denoteSigned values bs)
      (bs.map fun t => x * (sign t.1 * t.2.denote values)).sum := by
  induction bs with
  | nil          => exact .mul_zero x
  | cons t bs ih =>
    rw [denoteSigned, List.map_cons, List.sum_cons, List.map_cons, List.sum_cons, Exact.mul_add]
    exact (Refines.refl _).add ih

-- The product of two sums is multiplied out.
theorem refines_denoteSigned_mul (as bs : List (Bool × Expr (Exact I))) :
    Refines (denoteSigned values as * denoteSigned values bs)
      ((as ×ˢ bs).map fun (s, t) =>
        sign (s.1 == t.1) * (s.2.denote values * t.2.denote values)).sum := by
  induction as with
  | nil          => exact .zero_mul _
  | cons s as ih =>
    rw [List.product_cons, List.map_append, List.sum_append, List.map_map, denoteSigned,
      List.map_cons, List.sum_cons, Exact.add_mul]
    refine Refines.add ?_ ih
    refine (refines_mul_denoteSigned _ bs).trans (.of_eq ?_)
    refine congrArg List.sum (List.map_congr_left ?_)
    intro t _
    simp only [Function.comp_apply, ← sign_mul_sign]
    exact mul_mul_mul_comm ..

theorem preserves_of_distributesTo
    (h : DistributesTo (Preserves values) (PreservesSum values) a b r) :
    Preserves values (.mul a b) r := by
  cases h with
  | product _ _ h => exact h
  | @sum products r hp hsum =>
    have hsides : Refines ((Expr.mul a b).denote values)
        (denoteSigned values (a.addends true) * denoteSigned values (b.addends true)) := by
      rw [denoteSigned_addends, denoteSigned_addends]
      exact .of_eq (congrArg₂ (· * ·) (one_mul _).symm (one_mul _).symm)
    refine (hsides.trans (refines_denoteSigned_mul _ _)).trans (Refines.trans ?_ hsum)
    refine Refines.sum (List.forall₂_map_left_iff.mpr (List.forall₂_map_right_iff.mpr ?_))
    refine hp.imp fun (s, t) (x, u) ⟨hx, hu⟩ => ?_
    cases hx
    exact (Refines.refl _).mul hu

theorem refines_of_distributesTimes {n : ℕ}
    (h : DistributesTimes (fun a b r => Preserves values (.mul a b) r) a n t r) :
    Refines (t.denote values * a.denote values ^ n) (r.denote values) := by
  induction h with
  | zero t => exact .of_eq (by rw [pow_zero, mul_one])
  | @succ n t s r hs _ ih =>
    have hstep : Refines (t.denote values * a.denote values * a.denote values ^ n) _ :=
      Refines.mul hs (.refl _)
    rw [pow_succ', ← mul_assoc]
    exact hstep.trans ih

theorem preserves_of_expandsTo (hI : I.Lawful) (hint : I.Integral) {maxPower : ℕ}
    (h : ExpandsTo maxPower (Preserves values) (Preserves values) (PreservesSum values)
      (fun a b r => Preserves values (.mul a b) r) (Preserves values) t r) :
    Preserves values t r := by
  cases h with
  | canonical _ _ h => exact h
  | neg ha hr => exact (Refines.neg ha).trans hr
  | sum ho ha hb hr =>
    rw [PreservesSum, denoteAddends_singleton] at hr
    exact (Refines.apply _ ha hb).trans hr
  | mul ha hb hr => exact (Refines.apply .mul ha hb).trans hr
  | pow ha hr _ => exact (Refines.apply .pow ha (.refl _)).trans hr
  | @pow_sum a a' b r k hk hle _ ha hr =>
    refine Refines.trans (fun v hv => ?_) (refines_of_distributesTimes hr)
    obtain ⟨u, e, hu, he, hv⟩ := lift_eq_some_iff.mp hv
    cases (denote_of_integerExponent? hint hk).symm.trans he
    obtain ⟨n, rfl⟩ := Int.eq_ofNat_of_zero_le (by omega : 0 ≤ k)
    rw [Int.cast_natCast] at hv
    cases (hI.pow_natCast u n).symm.trans hv
    rw [Int.toNat_natCast, mul_pow_sub_one (by omega)]
    exact pow_eq_some (ha u hu) n

variable [NumberText (Exact I)]

theorem preserves_of_gives_product (hI : I.Lawful) (h : Gives (product t) r) :
    Preserves values t r :=
  have ⟨n, _, hr⟩ := h.exists_of_bind
  product_induct (fun _ _ => preservesSum_of_sumsTo) (fun _ _ => preserves_of_multipliesTo hI)
    n t r hr

theorem preservesSum_of_gives_sum (hI : I.Lawful) {addends : List (Exact I × Expr (Exact I))}
    (h : Gives (sum addends) r) : PreservesSum values addends r :=
  sum_induct (fun _ _ => preservesSum_of_sumsTo) (fun _ _ => preserves_of_multipliesTo hI) h

theorem preserves_of_gives_canonicalAt (hI : I.Lawful) {d : Nat} (h : Gives (t.canonicalAt d) r) :
    Preserves values t r :=
  canonicalAt_induct (fun _ _ => preservesSum_of_sumsTo) (fun _ _ => preserves_of_multipliesTo hI)
    (fun _ _ => preserves_of_becomes hI) d h

theorem preserves_of_gives_expandAt (hI : I.Lawful) (hint : I.Integral) {maxPower d : ℕ}
    (h : Gives (t.expandAt maxPower d) r) : Preserves values t r :=
  expandAt_induct (fun _ _ => preservesSum_of_gives_sum hI)
    (fun _ _ => preserves_of_gives_product hI)
    (fun _ _ _ => preserves_of_gives_canonicalAt hI)
    (fun _ _ _ h => preserves_of_distributesTo (distributesTo_of_gives
      (fun _ _ => preservesSum_of_gives_sum hI) (fun _ _ => preserves_of_gives_product hI) h))
    (fun _ _ => preserves_of_expandsTo hI hint) h

end Expr

end InfixAlgebra
