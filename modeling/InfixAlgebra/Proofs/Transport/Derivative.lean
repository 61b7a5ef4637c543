import InfixAlgebra.Expr.Derivative
import InfixAlgebra.Proofs.Transport.Canonical

namespace InfixAlgebra

open Metered

variable {α β : Type} [Scalar α] [NumberText α] [Scalar β] [NumberText β] {f : α → β}
  (hf : Scalar.Faithful f)

include hf

namespace Expr

theorem zero_map : (number 0 : Expr α).map f = number 0 :=
  congrArg number hf.zero

theorem one_map : (number 1 : Expr α).map f = number 1 :=
  congrArg number hf.one

theorem ofNat_map (k : Nat) :
    (number (Scalar.ofNat k) : Expr α).map f = number (Scalar.ofNat k) :=
  congrArg number (hf.ofNat k)

theorem isNumber_neg_one_map (t : Expr α) : (t.map f).isNumber (-1) = t.isNumber (-1) := by
  rw [← hf.one, ← hf.neg, isNumber_map hf]

theorem getD_fold?_map (op : Operator) (a b r : Expr α) :
    (fold? op (a.map f) (b.map f)).getD (r.map f) = ((fold? op a b).getD r).map f := by
  rw [fold?_map hf, Option.getD_map]

theorem reciprocal?_map (a : Expr α) :
    Folded.reciprocal? (a.map f) = (Folded.reciprocal? a).map (map f) := by
  cases a with
  | binary op a b =>
    cases op with
    | div =>
      simp only [map, Folded.reciprocal?, isNumber_one_map hf]
      split <;> rfl
    | _ => rfl
  | _ => rfl

namespace Folded

theorem neg_map (a : Expr α) : neg (a.map f) = (neg a).map f := by
  cases a with
  | number x => exact congrArg number (hf.neg x).symm
  | _        => rfl

theorem add_map (a b : Expr α) : add (a.map f) (b.map f) = (add a b).map f := by
  unfold add
  rw [isNumber_zero_map hf, isNumber_zero_map hf, apply_ite (map f), apply_ite (map f),
    ← getD_fold?_map hf]
  cases b <;> rfl

theorem sub_map (a b : Expr α) : sub (a.map f) (b.map f) = (sub a b).map f := by
  unfold sub
  rw [isNumber_zero_map hf, isNumber_zero_map hf, apply_ite (map f), apply_ite (map f),
    ← getD_fold?_map hf, neg_map hf]
  cases b <;> rfl

theorem div_map (a b : Expr α) : div (a.map f) (b.map f) = (div a b).map f := by
  have hdiv := getD_fold?_map hf .div a b (.div a b)
  unfold div
  rw [isNumber_zero_map hf, isNumber_zero_map hf, isNumber_one_map hf, ← zero_map hf,
    apply_ite (map f), apply_ite (map f), ← hdiv]
  rfl

theorem pow_map (a b : Expr α) : pow (a.map f) (b.map f) = (pow a b).map f := by
  have hpow := getD_fold?_map hf .pow a b (.pow a b)
  unfold pow
  rw [isNumber_zero_map hf, isNumber_one_map hf, ← one_map hf, apply_ite (map f),
    apply_ite (map f), ← hpow]
  rfl

theorem log_map (a : Expr α) : log (a.map f) = (log a).map f := by
  have hone := one_map hf
  cases a with
  | constant c =>
    cases c with
    | e  => exact hone.symm
    | pi => rfl
  | _ => rfl

theorem scale_map (x : α) (b : Expr α) : scale (f x) (b.map f) = (scale x b).map f := by
  have hzero (x : α) : (f x == 0) = (x == 0) := by rw [← hf.zero, hf.beq]
  have hone (x : α) : (f x == 1) = (x == 1) := by rw [← hf.one, hf.beq]
  have hminus (x : α) : (f x == -1) = (x == -1) := by rw [← hf.one, ← hf.neg, hf.beq]
  induction x, b using scale.induct with
  | case1 b x h₀ =>
    rw [scale.eq_def, scale.eq_def x, hzero, isNumber_zero_map hf, if_pos h₀, if_pos h₀,
      zero_map hf]
  | case2 b x h₀ h₁ =>
    rw [scale.eq_def, scale.eq_def x, hzero, isNumber_zero_map hf, hone, if_neg h₀, if_neg h₀,
      if_pos h₁, if_pos h₁]
  | case3 b x h₀ h₁ hb =>
    rw [scale.eq_def, scale.eq_def x, hzero, isNumber_zero_map hf, hone, isNumber_one_map hf,
      if_neg h₀, if_neg h₀, if_neg h₁, if_neg h₁, if_pos hb, if_pos hb]
    rfl
  | case4 b x h₀ h₁ hb ih =>
    rw [scale.eq_def, scale.eq_def x, hzero, isNumber_zero_map hf, hone, isNumber_one_map hf,
      if_neg h₀, if_neg h₀, if_neg h₁, if_neg h₁, if_neg hb, if_neg hb, ← getD_fold?_map hf]
    refine congrArg (Option.getD _) ?_
    rw [hminus, isNumber_neg_one_map hf]
    split
    case isTrue => exact neg_map hf b
    case isFalse =>
      split
      case isTrue => exact congrArg number (hf.neg x).symm
      case isFalse =>
        rw [reciprocal?_map hf]
        cases hd : reciprocal? b with
        | some d => exact div_map hf (number x) d
        | none =>
          cases b with
          | binary op a rest =>
            cases op with
            | mul =>
              cases a with
              | number y =>
                show scale (f x * f y) (rest.map f) = _
                rw [← hf.mul]
                exact ih
              | _ => rfl
            | _ => rfl
          | _ => rfl

omit [NumberText α] hf in
theorem mul_of_number? {a : Expr α} (ha : a.number? = none) (b : Expr α) :
    mul a b =
      if b.isNumber 0 then number 0
      else if b.isNumber 1 then a
      else if b.isNumber (-1) then neg a
      else
        match reciprocal? a, reciprocal? b, b with
        | some d, _, b            => div b d
        | none, some d, _         => div a d
        | none, none, number y    => scale y a
        | none, none, b           => .mul a b := by
  cases a with
  | number x => cases ha
  | _        => rfl

theorem mul_map (a b : Expr α) : mul (a.map f) (b.map f) = (mul a b).map f := by
  cases ha : a.number? with
  | some x =>
    cases a with
    | number x => exact scale_map hf x b
    | _        => cases ha
  | none =>
    have ha' : (a.map f).number? = none := by rw [number?_map, ha]; rfl
    rw [mul_of_number? ha, mul_of_number? ha', isNumber_zero_map hf, isNumber_one_map hf,
      isNumber_neg_one_map hf, reciprocal?_map hf, reciprocal?_map hf]
    split
    case isTrue => exact (zero_map hf).symm
    case isFalse =>
      split
      case isTrue => rfl
      case isFalse =>
        split
        case isTrue => exact neg_map hf a
        case isFalse =>
          cases hda : reciprocal? a with
          | some d => exact div_map hf b d
          | none =>
            cases hdb : reciprocal? b with
            | some d => exact div_map hf a d
            | none =>
              cases b with
              | number y => exact scale_map hf y a
              | _        => rfl

end Folded

theorem slope_map (g : Elementary) (a : Expr α) : slope g (a.map f) = (slope g a).map f := by
  have hcall (g : Elementary) : call g [a.map f] = (call g [a]).map f := rfl
  cases g with
  | sin  => rfl
  | cos  => rw [slope, hcall, Folded.neg_map hf]; rfl
  | tan  =>
    rw [slope, hcall, ← one_map hf, ← ofNat_map hf, Folded.pow_map hf, Folded.div_map hf]; rfl
  | sqrt =>
    rw [slope, hcall, ← one_map hf, ← ofNat_map hf, Folded.mul_map hf, Folded.div_map hf]; rfl
  | log  => rw [slope, ← one_map hf, Folded.div_map hf]; rfl

-- What the variable does not occur in is not looked into.
theorem mirrors_visit {t : Expr α} {name : String} {x : Metered α (Expr α)}
    {y : Metered β (Expr β)} (d : Nat) (h : Mirrors (map f) x y) :
    Mirrors (map f) (do Metered.step d; if !t.contains name then return number 0 else x)
      (do Metered.step d; if !(t.map f).contains name then return number 0 else y) := by
  refine (Mirrors.step d).bind fun _ => ?_
  rw [contains_map, ← zero_map hf]
  cases t.contains name with
  | false => exact .pure (number 0)
  | true  => exact h

section Operators

variable {name : String} {a b : Expr α} {d : Nat}
  (ha : ∀ d, Mirrors (map f) (a.deriveAt name d) ((a.map f).deriveAt name d))
  (hb : ∀ d, Mirrors (map f) (b.deriveAt name d) ((b.map f).deriveAt name d))

include ha hb

theorem mirrors_deriveAt_mul :
    Mirrors (map f) ((mul a b).deriveAt name d) (((mul a b).map f).deriveAt name d) := by
  rw [map, deriveAt, deriveAt]
  refine mirrors_visit hf d ?_
  rw [contains_map, contains_map]
  split
  case isTrue => exact (hb _).lift fun b' => Folded.mul_map hf a b'
  case isFalse =>
    split
    case isTrue  => exact (ha _).lift fun a' => Folded.mul_map hf a' b
    case isFalse =>
      refine (ha _).lift₂ (hb _) fun a' b' => ?_
      rw [Folded.mul_map hf, Folded.mul_map hf, Folded.add_map hf]

theorem mirrors_deriveAt_div :
    Mirrors (map f) ((div a b).deriveAt name d) (((div a b).map f).deriveAt name d) := by
  rw [map, deriveAt, deriveAt]
  refine mirrors_visit hf d ?_
  rw [contains_map]
  split
  case isTrue  => exact (ha _).lift fun a' => Folded.div_map hf a' b
  case isFalse =>
    refine (ha _).lift₂ (hb _) fun a' b' => ?_
    rw [Folded.mul_map hf, Folded.mul_map hf, Folded.sub_map hf, ← ofNat_map hf,
      Folded.pow_map hf, Folded.div_map hf]

theorem mirrors_deriveAt_pow :
    Mirrors (map f) ((pow a b).deriveAt name d) (((pow a b).map f).deriveAt name d) := by
  have hpow : Expr.pow (a.map f) (b.map f) = (Expr.pow a b).map f := rfl
  rw [map, deriveAt, deriveAt]
  refine mirrors_visit hf d ?_
  rw [contains_map, contains_map]
  split
  case isTrue =>
    refine (ha _).lift fun a' => ?_
    rw [← one_map hf, Folded.sub_map hf, Folded.pow_map hf, Folded.mul_map hf, Folded.mul_map hf]
  case isFalse =>
    split
    case isTrue =>
      refine (hb _).lift fun b' => ?_
      rw [hpow, Folded.log_map hf, Folded.mul_map hf, Folded.mul_map hf]
    case isFalse =>
      -- The derivative of the exponent comes first.
      refine (hb _).lift₂ (ha _) fun b' a' => ?_
      rw [hpow, Folded.log_map hf, Folded.mul_map hf, Folded.mul_map hf, Folded.div_map hf,
        Folded.add_map hf, Folded.mul_map hf]

theorem mirrors_deriveAt_binary (op : Operator) :
    Mirrors (map f) ((binary op a b).deriveAt name d) (((binary op a b).map f).deriveAt name d) := by
  cases op with
  | add =>
    rw [map, deriveAt, deriveAt]
    exact mirrors_visit hf d ((ha _).lift₂ (hb _) (Folded.add_map hf))
  | sub =>
    rw [map, deriveAt, deriveAt]
    exact mirrors_visit hf d ((ha _).lift₂ (hb _) (Folded.sub_map hf))
  | mul => exact mirrors_deriveAt_mul hf ha hb
  | div => exact mirrors_deriveAt_div hf ha hb
  | pow => exact mirrors_deriveAt_pow hf ha hb

end Operators

theorem mirrors_deriveAt_call {name : String} {args : List (Expr α)} {d : Nat} (g : Elementary)
    (hargs : ∀ a ∈ args, ∀ d, Mirrors (map f) (a.deriveAt name d) ((a.map f).deriveAt name d)) :
    Mirrors (map f) ((call g args).deriveAt name d) (((call g args).map f).deriveAt name d) := by
  match args with
  | [] => exact mirrors_visit hf d (.unsupported _)
  | [a] =>
    rw [map, mapAll, mapAll, deriveAt, deriveAt]
    refine mirrors_visit hf d ((hargs a List.mem_cons_self _).lift fun a' => ?_)
    rw [slope_map hf, Folded.mul_map hf]
  | a :: b :: args =>
    have hlength : (mapAll f (a :: b :: args)).length = (a :: b :: args).length := by
      rw [mapAll_eq, List.length_map]
    refine mirrors_visit hf d ?_
    show Mirrors _ _ (throw (.unsupported (.derivative g (mapAll f (a :: b :: args)).length)))
    rw [hlength]
    exact .unsupported _

theorem mirrors_deriveAt (name : String) (t : Expr α) (d : Nat) :
    Mirrors (map f) (t.deriveAt name d) ((t.map f).deriveAt name d) := by
  induction t generalizing d with
  | number x =>
    rw [map, deriveAt, deriveAt]
    exact mirrors_visit hf d (.of_eq (zero_map hf).symm)
  | constant c =>
    rw [map, deriveAt, deriveAt]
    exact mirrors_visit hf d (.of_eq (zero_map hf).symm)
  | var x =>
    have hslope : (number (if x = name then 1 else 0) : Expr α).map f =
        number (if x = name then 1 else 0) := by
      rw [map, apply_ite f, hf.zero, hf.one]
    rw [map, deriveAt, deriveAt]
    exact mirrors_visit hf d (.of_eq hslope.symm)
  | neg a ih =>
    rw [map, deriveAt, deriveAt]
    exact mirrors_visit hf d ((ih _).lift (Folded.neg_map hf))
  | binary op a b iha ihb => exact mirrors_deriveAt_binary hf iha ihb op
  | call g args ih        => exact mirrors_deriveAt_call hf g ih

omit hf [Scalar α] [NumberText α] [Scalar β] [NumberText β] in
theorem mirrored_checkDepth {l l' : Limits} (hl : l ≤ l') (t : Expr α) :
    Mirrored l id (t.checkDepth l'.maxDepth) ((t.map f).checkDepth l.maxDepth) := by
  unfold checkDepth
  rw [depth_map]
  by_cases hdepth : t.depth > l.maxDepth
  case pos =>
    rw [if_pos hdepth]
    exact .tooDeep _
  case neg =>
    have hdepth' : ¬t.depth > l'.maxDepth := fun hgt => hdepth (Nat.lt_of_le_of_lt hl.1 hgt)
    rw [if_neg hdepth, if_neg hdepth']
    exact .ok ()

theorem mirrored_differentiate {config : Config α} {config' : Config β}
    (hl : config'.toLimits ≤ config.toLimits) (name : String) (t : Expr α) :
    Mirrored config'.toLimits (map f) (t.differentiate config name)
      ((t.map f).differentiate config' name) :=
  (mirrored_checkDepth hl t).bind fun _ => (mirrors_deriveAt hf name t 1).run hl

end Expr

end InfixAlgebra
