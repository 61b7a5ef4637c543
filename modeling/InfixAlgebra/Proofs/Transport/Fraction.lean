import InfixAlgebra.Expr.Fraction
import InfixAlgebra.Proofs.Transport.Canonical

namespace InfixAlgebra

open Metered

variable {α β : Type}

def Fraction.map (f : α → β) (p : Fraction α) : Fraction β :=
  ⟨p.numerator.map f, p.denominator.map f⟩

variable [Scalar α] [NumberText α] [Scalar β] [NumberText β] {f : α → β}
  (hf : Scalar.Faithful f)

namespace Expr

omit [Scalar α] [NumberText α] [Scalar β] [NumberText β] in
theorem addends_map (positive : Bool) (t : Expr α) :
    (t.map f).addends positive = (t.addends positive).map (Prod.map id (map f)) := by
  induction t generalizing positive with
  | binary op a b iha ihb =>
    cases op with
    | add => simp only [map, addends, iha, ihb, List.map_append]
    | sub => simp only [map, addends, iha, ihb, List.map_append]
    | _   => rfl
  | _ => rfl

include hf

theorem times_map (a b : Expr α) : times (a.map f) (b.map f) = (times a b).map f := by
  unfold times
  rw [isNumber_one_map hf, isNumber_one_map hf, apply_ite (map f), apply_ite (map f)]
  rfl

theorem raised_map (a : Expr α) (k : Nat) : raised (a.map f) k = (raised a k).map f := by
  unfold raised
  rw [isNumber_one_map hf, ← hf.one, ← hf.ofNat, apply_ite (map f), apply_ite (map f)]
  rfl

theorem integerExponent?_map (t : Expr α) : (t.map f).integerExponent? = t.integerExponent? := by
  cases t with
  | number x => simp only [map, integerExponent?, hf.toInt?]
  | neg a =>
    cases a with
    | number x => simp only [map, integerExponent?, ← hf.neg, hf.toInt?]
    | _        => rfl
  | _ => rfl

theorem sign_map (positive : Bool) : (sign positive : β) = f (sign positive) := by
  cases positive with
  | true  => exact hf.one.symm
  | false => rw [sign, sign, ← hf.one, ← hf.neg]; rfl

theorem leading_map (t : Expr α) : (t.map f).leading = t.leading.map f (map f) := by
  have hone (a : Expr β) : ((1 : β), a) = (f 1, a) := by rw [hf.one]
  induction t with
  | number x => exact congrArg (fun r => (f x, number r)) hf.one.symm
  | neg a ih => simp only [map, leading, ih, Prod.map, hf.neg]
  | binary op a b iha _ =>
    cases op with
    | mul => simp only [map, leading, iha, Prod.map, times_map hf]
    | _   => exact hone _
  | _ => exact hone _

theorem cross_map (op : Operator) (p q : Fraction α) :
    fractionAt.cross op (p.map f) (q.map f) = (fractionAt.cross op p q).map f := by
  unfold fractionAt.cross
  simp only [Fraction.map, same_map hf, times_map hf]
  split <;> rfl

theorem divideCoefficients?_map (divisor : α) (t : Expr α) :
    (t.map f).divideCoefficients? (f divisor) =
      (t.divideCoefficients? divisor).map (List.map (Prod.map f (map f))) := by
  simp only [divideCoefficients?, addends_map, List.map_map, List.all_map, Function.comp_def,
    Prod.map, leading_map hf, ← hf.div, hf.toInt?, sign_map hf]
  split
  case isTrue  => simp [Function.comp_def, map]
  case isFalse => rfl

theorem mirrors_fractionAt (t : Expr α) (d : Nat) :
    Mirrors (Fraction.map f) (t.fractionAt d) ((t.map f).fractionAt d) := by
  have hwhole (t : Expr α) : Fraction.mk (t.map f) (number 1) = (Fraction.mk t (number 1)).map f :=
    congrArg (fun x => Fraction.mk (t.map f) (number x)) hf.one.symm
  induction t generalizing d with
  | number x      => exact (Mirrors.step d).bind fun _ => .of_eq (hwhole _)
  | constant c    => exact (Mirrors.step d).bind fun _ => .of_eq (hwhole _)
  | var name      => exact (Mirrors.step d).bind fun _ => .of_eq (hwhole _)
  | call g args _ => exact (Mirrors.step d).bind fun _ => .of_eq (hwhole _)
  | neg a ih =>
    rw [map, fractionAt, fractionAt]
    exact (Mirrors.step d).bind fun _ => (ih _).bind fun p => .pure _
  | binary op a b iha ihb =>
    cases op with
    | add =>
      rw [map, fractionAt, fractionAt]
      exact (Mirrors.step d).bind fun _ => (iha _).lift₂ (ihb _) (cross_map hf .add)
    | sub =>
      rw [map, fractionAt, fractionAt]
      exact (Mirrors.step d).bind fun _ => (iha _).lift₂ (ihb _) (cross_map hf .sub)
    | mul =>
      rw [map, fractionAt, fractionAt]
      refine (Mirrors.step d).bind fun _ => (iha _).lift₂ (ihb _) fun p q => ?_
      simp only [Fraction.map, times_map hf]
    | div =>
      rw [map, fractionAt, fractionAt]
      refine (Mirrors.step d).bind fun _ => (iha _).lift₂ (ihb _) fun p q => ?_
      simp only [Fraction.map, times_map hf]
    | pow =>
      rw [map, fractionAt, fractionAt, integerExponent?_map hf]
      refine (Mirrors.step d).bind fun _ => ?_
      split
      case h_1   => exact .of_eq (hwhole (pow a b))
      case h_2 k =>
        refine (iha _).bind fun p => ?_
        simp only [Fraction.map, raised_map hf]
        split
        case isTrue  => exact .pure _
        case isFalse => exact .pure _

theorem mirrors_distribute (a b : Expr α) :
    Mirrors (map f) (distribute a b) (distribute (a.map f) (b.map f)) := by
  unfold distribute
  rw [isSum_map, isSum_map]
  split
  case isTrue => exact mirrors_product hf (mul a b)
  case isFalse =>
    dsimp only
    rw [addends_map, addends_map, List.length_map, List.length_map]
    refine (Mirrors.charge _).bind fun _ => ?_
    have hpairs (as bs : List (Bool × Expr α)) :
        ((as.map (Prod.map id (map f))).flatMap fun s =>
          (bs.map (Prod.map id (map f))).map fun t => (s, t)) =
        (as.flatMap fun s => bs.map fun t => (s, t)).map
          (Prod.map (Prod.map id (map f)) (Prod.map id (map f))) := by
      simp only [List.flatMap_map, List.map_flatMap, List.map_map, Function.comp_def, Prod.map]
    rw [hpairs]
    refine (Mirrors.mapM (f := Prod.map (Prod.map id (map f)) (Prod.map id (map f)))
      (g := Prod.map f (map f)) (fun st => ?_) _).bind fun products => mirrors_sum hf products
    refine (mirrors_product hf (mul st.1.2 st.2.2)).lift fun r => ?_
    exact congrArg (·, r.map f) (sign_map hf _)

theorem mirrors_distributeTimes (a : Expr α) (n : Nat) (t : Expr α) :
    Mirrors (map f) (distributeTimes a n t) (distributeTimes (a.map f) n (t.map f)) := by
  induction n generalizing t with
  | zero      => exact .pure t
  | succ n ih => exact (mirrors_distribute hf t a).bind ih

theorem mirrors_expandAt (maxPower : Nat) (t : Expr α) (d : Nat) :
    Mirrors (map f) (t.expandAt maxPower d) ((t.map f).expandAt maxPower d) := by
  induction t generalizing d with
  | number x      => exact (Mirrors.step d).bind fun _ => mirrors_canonicalAt hf (number x) d
  | constant c    => exact (Mirrors.step d).bind fun _ => mirrors_canonicalAt hf (constant c) d
  | var name      => exact (Mirrors.step d).bind fun _ => mirrors_canonicalAt hf (var name) d
  | call g args _ => exact (Mirrors.step d).bind fun _ => mirrors_canonicalAt hf (call g args) d
  | neg a ih =>
    rw [map, expandAt, expandAt]
    exact (Mirrors.step d).bind fun _ => (ih _).bind fun a => mirrors_product hf (neg a)
  | binary op a b iha ihb =>
    cases op with
    | add =>
      rw [map, expandAt, expandAt]
      refine (Mirrors.step d).bind fun _ => (iha _).bind fun a => (ihb _).bind fun b => ?_
      exact mirrors_sum_singleton hf (add a b)
    | sub =>
      rw [map, expandAt, expandAt]
      refine (Mirrors.step d).bind fun _ => (iha _).bind fun a => (ihb _).bind fun b => ?_
      exact mirrors_sum_singleton hf (sub a b)
    | mul =>
      rw [map, expandAt, expandAt]
      refine (Mirrors.step d).bind fun _ => (iha _).bind fun a => (ihb _).bind fun b => ?_
      exact mirrors_distribute hf a b
    | div => exact (Mirrors.step d).bind fun _ => mirrors_canonicalAt hf (div a b) d
    | pow =>
      rw [map, expandAt, expandAt, integerExponent?_map hf]
      refine (Mirrors.step d).bind fun _ => (iha _).bind fun a => ?_
      rw [isSum_map]
      split
      case h_1 k =>
        split
        case isTrue  => exact mirrors_distributeTimes hf a _ a
        case isFalse => exact mirrors_canonicalAt hf (pow a b) d
      case h_2 => exact mirrors_canonicalAt hf (pow a b) d

theorem mirrors_reduce (p : Fraction α) : Mirrors (map f) (reduce p) (reduce (p.map f)) := by
  have hquotient : Mirrors (α := α) (β := β) (map f) (pure (quotient p.numerator p.denominator))
      (pure (quotient (p.numerator.map f) (p.denominator.map f))) :=
    .of_eq (quotient_map hf _ _)
  obtain ⟨n, m⟩ := p
  cases m with
  | number x =>
    simp only [reduce, Fraction.map, map, hf.isFinite, ← hf.zero, ← hf.one, hf.beq,
      divideCoefficients?_map hf]
    split
    case isFalse => exact hquotient
    case isTrue =>
      cases n.divideCoefficients? x with
      | some addends => exact mirrors_sum hf addends
      | none         => exact hquotient
  | _ => exact hquotient

theorem mirrored_rationalize {config : Config α} {config' : Config β}
    (hl : config'.toLimits ≤ config.toLimits)
    (hpower : config.maxExpandPower = config'.maxExpandPower) (t : Expr α) :
    Mirrored config'.toLimits (map f) (t.rationalize config)
      ((t.map f).rationalize config') := by
  unfold rationalize
  rw [hpower]
  refine Mirrors.run ((mirrors_fractionAt hf t 1).bind fun p => ?_) hl
  refine (mirrors_expandAt hf _ p.numerator 1).bind fun n => ?_
  refine (mirrors_expandAt hf _ p.denominator 1).bind fun m => ?_
  exact mirrors_reduce hf ⟨n, m⟩

end Expr

end InfixAlgebra
