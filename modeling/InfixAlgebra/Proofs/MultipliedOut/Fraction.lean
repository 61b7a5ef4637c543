import InfixAlgebra.Proofs.Fraction.Steps
import InfixAlgebra.Proofs.MultipliedOut.Canonical

namespace InfixAlgebra

open Metered

variable {α : Type} [Scalar α]

namespace Expr

variable {t r a b f : Expr α} {k n : Nat}

-- Expressions in which powers have literal integers for exponents. Calls are not looked into.
inductive IntegerPowers : Expr α → Prop
  | number (x : α) : IntegerPowers (.number x)
  | constant (c : Constant) : IntegerPowers (.constant c)
  | var (name : String) : IntegerPowers (.var name)
  | call (f : Elementary) (args : List (Expr α)) : IntegerPowers (.call f args)
  | neg {a : Expr α} : IntegerPowers a → IntegerPowers (.neg a)
  | binary {op : Operator} {a b : Expr α} : op ≠ .pow → IntegerPowers a → IntegerPowers b →
    IntegerPowers (.binary op a b)
  | pow {a b : Expr α} : IntegerPowers a → b.integerExponent?.isSome → IntegerPowers (.pow a b)

inductive Undivided : Expr α → Prop
  | number (x : α) : Undivided (.number x)
  | constant (c : Constant) : Undivided (.constant c)
  | var (name : String) : Undivided (.var name)
  | call (f : Elementary) (args : List (Expr α)) : Undivided (.call f args)
  | neg {a : Expr α} : Undivided a → Undivided (.neg a)
  | sum {op : Operator} {a b : Expr α} : op = .add ∨ op = .sub → Undivided a → Undivided b →
    Undivided (.binary op a b)
  | mul {a b : Expr α} : Undivided a → Undivided b → Undivided (.mul a b)
  | pow {a : Expr α} {k : Nat} : Undivided a → 2 ≤ k → k < 2 ^ 31 →
    Undivided (.pow a (.number (Scalar.ofNat k)))

theorem Undivided.times (ha : a.Undivided) (hb : b.Undivided) : (times a b).Undivided := by
  unfold Expr.times
  split
  case isTrue => exact hb
  case isFalse =>
    split
    case isTrue  => exact ha
    case isFalse => exact .mul ha hb

theorem Undivided.raised (ha : a.Undivided) (hk : k < 2 ^ 31) : (raised a k).Undivided := by
  unfold Expr.raised
  split
  case isTrue => exact ha
  case isFalse hone =>
    rw [Bool.or_eq_true, decide_eq_true_eq, not_or] at hone
    split
    case isTrue        => exact .number 1
    case isFalse hzero => exact .pow ha (by omega) hk

end Expr

structure Fraction.Undivided (f : Fraction α) : Prop where
  numerator   : f.numerator.Undivided
  denominator : f.denominator.Undivided

namespace Expr

variable {t r a b : Expr α} {f g : Fraction α} {op : Operator} {k maxPower d : Nat}

theorem undivided_cross (ho : op = .add ∨ op = .sub) (hf : f.Undivided) (hg : g.Undivided) :
    (fractionAt.cross op f g).Undivided := by
  unfold fractionAt.cross
  split
  case isTrue => exact ⟨.sum ho hf.numerator hg.numerator, hf.denominator⟩
  case isFalse =>
    have hleft := hf.numerator.times hg.denominator
    have hright := hg.numerator.times hf.denominator
    exact ⟨.sum ho hleft hright, hf.denominator.times hg.denominator⟩

theorem undivided_of_splitsTo (h : SplitsTo (fun t f => t.IntegerPowers → f.Undivided) t f)
    (ht : t.IntegerPowers) : f.Undivided := by
  have hone : (Expr.number 1 : Expr α).Undivided := .number 1
  cases h with
  | whole hneg hbinary =>
    cases ht with
    | number x    => exact ⟨.number x, hone⟩
    | constant c  => exact ⟨.constant c, hone⟩
    | var name    => exact ⟨.var name, hone⟩
    | call g args => exact ⟨.call g args, hone⟩
    | neg         => exact absurd rfl (hneg _)
    | binary      => exact absurd rfl (hbinary _ _ _)
    | pow         => exact absurd rfl (hbinary _ _ _)
  | whole_pow hb =>
    cases ht with
    | binary hop   => exact absurd rfl hop
    | pow _ hsome  => rw [hb] at hsome; cases hsome
  | neg ha =>
    cases ht with
    | neg hta => exact ⟨.neg (ha hta).numerator, (ha hta).denominator⟩
  | sum ho ha hb =>
    cases ht with
    | binary _ hta htb => exact undivided_cross ho (ha hta) (hb htb)
    | pow              => rcases ho with ho | ho <;> cases ho
  | mul ha hb =>
    cases ht with
    | binary _ hta htb =>
      exact ⟨(ha hta).numerator.times (hb htb).numerator,
        (ha hta).denominator.times (hb htb).denominator⟩
  | div ha hb =>
    cases ht with
    | binary _ hta htb =>
      exact ⟨(ha hta).numerator.times (hb htb).denominator,
        (ha hta).denominator.times (hb htb).numerator⟩
  | pow hk _ ha =>
    have hlt := natAbs_lt_of_integerExponent? hk
    cases ht with
    | binary hop => exact absurd rfl hop
    | pow hta    => exact ⟨(ha hta).numerator.raised hlt, (ha hta).denominator.raised hlt⟩
  | inverse_pow hk _ ha =>
    have hlt := natAbs_lt_of_integerExponent? hk
    cases ht with
    | binary hop => exact absurd rfl hop
    | pow hta    => exact ⟨(ha hta).denominator.raised hlt, (ha hta).numerator.raised hlt⟩

theorem IntegerPowers.undivided (ht : t.IntegerPowers) (h : Gives (t.fractionAt d) f) :
    f.Undivided :=
  fractionAt_induct (fun _ _ => undivided_of_splitsTo) h ht

-- Addends and their leading numbers.

omit [Scalar α] in
theorem MultipliedOut.addends {P : Expr α → α → Prop} (ht : t.MultipliedOut P) (p : Bool) :
    ∀ s ∈ t.addends p, s.2.MultipliedOut P ∧ ¬s.2.isSum := by
  have single {t : Expr α} (ht : t.MultipliedOut P) (hs : ¬t.isSum) (p : Bool) :
      ∀ s ∈ t.addends p, s.2.MultipliedOut P ∧ ¬s.2.isSum := by
    rw [addends_of_not_isSum p hs, List.forall_mem_singleton]
    exact ⟨ht, hs⟩
  induction ht generalizing p with
  | @sum op a b ho _ _ iha ihb =>
    rcases ho with rfl | rfl
    case inl => exact List.forall_mem_append.mpr ⟨iha p, ihb p⟩
    case inr => exact List.forall_mem_append.mpr ⟨iha p, ihb (!p)⟩
  | number x     => exact single (.number x) nofun p
  | constant c   => exact single (.constant c) nofun p
  | var name     => exact single (.var name) nofun p
  | call g args  => exact single (.call g args) nofun p
  | neg ha hf    => exact single (.neg ha hf) nofun p
  | mul ha hb hf => exact single (.mul ha hb hf) nofun p
  | pow ha hx    => exact single (.pow ha hx) nofun p

theorem factors_of_isNumber {x : α} (h : t.isNumber x) : t.factors = [] := by
  cases t with
  | number y => rfl
  | _        => cases h

theorem factors_times (a b : Expr α) : (times a b).factors = a.factors ++ b.factors := by
  unfold times
  split
  case isTrue h => rw [factors_of_isNumber h, List.nil_append]
  case isFalse =>
    split
    case isTrue h => rw [factors_of_isNumber h, List.append_nil]
    case isFalse  => rfl

-- Taking out the number leaves the factors.
theorem factors_leading (t : Expr α) : t.leading.2.factors = t.factors := by
  induction t with
  | number x => rfl
  | neg a ih => exact ih
  | binary op a b iha _ =>
    cases op with
    | mul => exact (factors_times _ b).trans (congrArg (· ++ b.factors) iha)
    | _   => rfl
  | _ => rfl

theorem has_of_divideCoefficients? {x : α} {parts : List (α × Expr α)}
    (h : t.divideCoefficients? x = some parts) (ht : t.MultipliedOut (Power.Solid maxPower)) :
    ∀ p ∈ parts, (Term.ofExpr p.2).Has (.multipliedOut α maxPower) := by
  unfold divideCoefficients? at h
  dsimp only at h
  split at h
  case isFalse => cases h
  case isTrue =>
    cases h
    intro p hp
    obtain ⟨q, hq, rfl⟩ := List.mem_map.mp hp
    obtain ⟨s, hs, rfl⟩ := List.mem_map.mp hq
    have ⟨hout, hns⟩ := ht.addends true s hs
    exact ⟨trivial, (congrArg _ (factors_leading s.2)).mpr (hout.has hns).product⟩

variable [Scalar.Regular α] [Scalar.Counting α]

-- A power of a sum that is not multiplied out has an exponent that is not to be.
theorem solid_of_beyond (hk : 2 ≤ k) (hlt : k < 2 ^ 31)
    (h : ∀ l, (number (Scalar.ofNat k) : Expr α).integerExponent? = some l → a.isSum → 2 ≤ l →
      maxPower < l) : Power.Solid maxPower a (Scalar.ofNat k) where
  positive := .ofNat (by decide) (by omega) hlt
  factor hone := by
    have htwo : AtLeast 2 (Scalar.ofNat k : α) := .ofNat (by decide) hk hlt
    exact absurd hone htwo.not_beq_one
  beyond hs := by
    have hexponent : (number (Scalar.ofNat k) : Expr α).integerExponent? = some (k : Int) := by
      rw [integerExponent?, Scalar.Counting.toInt?_ofNat hlt]
      exact if_pos hlt
    have hbeyond := h k hexponent hs (by omega)
    exact .ofNat (by omega) (by omega) hlt

variable [NumberText α]

-- Each addend of the one is multiplied by each of the other.
theorem MultipliedOut.distribute (h : Gives (distribute a b) r)
    (ha : a.MultipliedOut (Power.Solid maxPower)) (hb : b.MultipliedOut (Power.Solid maxPower)) :
    r.MultipliedOut (Power.Solid maxPower) := by
  have hsteps : DistributesTo (MultipliesOut maxPower) (SumsOut maxPower) a b r :=
    distributesTo_of_gives (fun _ _ => sumsOut_of_gives) (fun _ _ => multipliesOut_of_gives) h
  cases hsteps with
  | product hna hnb hr => exact (hr.term (ha.has_mul hna hb hnb)).1.multipliedOut
  | sum hproducts hr =>
    have hpairs : ∀ st ∈ a.addends true ×ˢ b.addends true,
        (Term.ofExpr (.mul st.1.2 st.2.2)).Has (.multipliedOut α maxPower) := by
      intro (s, t) hst
      have ⟨hs, ht⟩ := List.mem_product.mp hst
      have ⟨hs, hns⟩ := ha.addends true s hs
      have ⟨ht, hnt⟩ := hb.addends true t ht
      exact hs.has_mul hns ht hnt
    refine (hr ?_).multipliedOut
    exact forall_of_forall₂ (hproducts.imp fun st p hp hst =>
      (hp.2.term hst).1.multipliedOut.hasTerms) hpairs

theorem MultipliedOut.distributesTimes {t : Expr α} (ha : a.MultipliedOut (Power.Solid maxPower))
    (ht : t.MultipliedOut (Power.Solid maxPower))
    (h : DistributesTimes (fun a b r => Gives (Expr.distribute a b) r) a k t r) :
    r.MultipliedOut (Power.Solid maxPower) := by
  induction h with
  | zero t       => exact ht
  | succ hs _ ih => exact ih (.distribute hs ht ha)

theorem multipliedOut_of_expandsTo
    (h : ExpandsTo maxPower (MultipliesOut maxPower) (CanonicalizesOut maxPower) (SumsOut maxPower)
      (fun a b r => Gives (distribute a b) r)
      (fun t r => t.Undivided → r.MultipliedOut (Power.Solid maxPower)) t r)
    (ht : t.Undivided) : r.MultipliedOut (Power.Solid maxPower) := by
  cases h with
  | canonical hneg hbinary hr =>
    cases ht with
    | number x    => exact (hr.multipliedOut (.number x)).1
    | constant c  => exact (hr.multipliedOut (.constant c)).1
    | var name    => exact (hr.multipliedOut (.var name)).1
    | call f args => exact (hr.multipliedOut (.call f args)).1
    | neg         => exact absurd rfl (hneg _)
    | sum ho      => rcases ho with rfl | rfl <;> cases hbinary _ _ _ rfl
    | mul         => cases hbinary _ _ _ rfl
    | pow         => cases hbinary _ _ _ rfl
  | @neg a a' _ ha hr =>
    cases ht with
    | neg hta =>
      have ha' := ha hta
      by_cases hs : a'.isSum
      case pos => exact (hr.sum a' (factors_of_isSum hs) hs ha'.hasTerms).multipliedOut
      case neg => exact (hr.term (ha'.has_neg hs)).1.multipliedOut
  | sum ho ha hb hr =>
    cases ht with
    | sum _ hta htb => exact .of_sum ho (ha hta) (hb htb) hr
    | mul           => rcases ho with ho | ho <;> cases ho
    | pow           => rcases ho with ho | ho <;> cases ho
  | mul ha hb hr =>
    cases ht with
    | mul hta htb => exact .distribute hr (ha hta) (hb htb)
    | sum ho      => rcases ho with ho | ho <;> cases ho
  | pow ha hr hbeyond =>
    cases ht with
    | pow hta hk hlt => exact (hr.multipliedOut (.pow (ha hta) (solid_of_beyond hk hlt hbeyond))).1
    | sum ho         => rcases ho with ho | ho <;> cases ho
  | pow_sum _ _ _ ha hr =>
    cases ht with
    | pow hta => exact .distributesTimes (ha hta) (ha hta) hr
    | sum ho  => rcases ho with ho | ho <;> cases ho

theorem Undivided.multipliedOut (ht : t.Undivided) (h : Gives (t.expandAt maxPower d) r) :
    r.MultipliedOut (Power.Solid maxPower) :=
  expandAt_induct (fun _ _ => sumsOut_of_gives) (fun _ _ => multipliesOut_of_gives)
    (fun _ _ _ => canonicalizesOut_of_gives) (fun _ _ _ => id)
    (fun _ _ => multipliedOut_of_expandsTo) h ht

end Expr

structure Power.Unexpanded (maxPower : Nat) (a : Expr α) (x : α) : Prop where
  nonneg : ¬Scalar.lt x 0
  beyond : a.isSum → ∀ k, Scalar.toInt? x = some k → ¬(2 ≤ k ∧ k ≤ maxPower)

theorem Power.Solid.unexpanded [Scalar.Counting α] {x : α} (h : Solid maxPower a x) :
    Unexpanded maxPower a x where
  nonneg := Scalar.Counting.not_lt_zero h.positive.le
  beyond hs k hk hle := by
    have := (h.beyond hs).le_of_toInt? hk
    omega

namespace Expr

-- One quotient of two parts that are multiplied out, or one part alone.
def RationalForm (maxPower : Nat) (r : Expr α) : Prop :=
  r.MultipliedOut (Power.Unexpanded maxPower) ∨
    ∃ n d, r = .div n d ∧ n.MultipliedOut (Power.Unexpanded maxPower) ∧
      d.MultipliedOut (Power.Unexpanded maxPower)

variable [Scalar.Regular α] [Scalar.Counting α] [NumberText α] {t r : Expr α} {f : Fraction α}
  {maxPower : Nat}

theorem RationalForm.of_reduce (h : Gives (reduce f) r)
    (hn : f.numerator.MultipliedOut (Power.Solid maxPower))
    (hd : f.denominator.MultipliedOut (Power.Solid maxPower)) : r.RationalForm maxPower := by
  have out {t : Expr α} (ht : t.MultipliedOut (Power.Solid maxPower)) :
      t.MultipliedOut (Power.Unexpanded maxPower) :=
    ht.mono fun _ _ hx => hx.unexpanded
  have hsteps : ReducesTo (SumsOut maxPower) f r :=
    reducesTo_of_gives (fun _ _ => sumsOut_of_gives) h
  cases hsteps with
  | divided _ _ _ _ hparts hr =>
    have hsum := hr fun p hp => hasTerms_of_has (has_of_divideCoefficients? hparts hn p hp)
    exact .inl (out hsum.multipliedOut)
  | quotient =>
    rcases quotient_cases f.numerator f.denominator with ⟨_, hr⟩ | hr | ⟨x, hr⟩ <;> rw [hr]
    · exact .inr ⟨_, _, rfl, out hn, out hd⟩
    · exact .inl (out hn)
    · exact .inl (.number x)

theorem IntegerPowers.rationalForm {config : Config α} (ht : t.IntegerPowers)
    (h : t.rationalize config = .ok r) : r.RationalForm config.maxExpandPower := by
  have ⟨f, n, d, hf, hn, hd, hr⟩ := exists_of_rationalize h
  have hparts := ht.undivided hf
  exact .of_reduce hr (hparts.numerator.multipliedOut hn) (hparts.denominator.multipliedOut hd)

end Expr

end InfixAlgebra
