import InfixAlgebra.Proofs.Derivative.Folding
import InfixAlgebra.Proofs.Derivative.Steps

namespace InfixAlgebra

namespace Expr

section Rules

variable {α : Type} [Scalar α]

def outerDerivative (f : Elementary) (a : Expr α) : Expr α :=
  match f with
  | .sin  => call .cos [a]
  | .cos  => .neg (call .sin [a])
  | .tan  => .div (number 1) (.pow (call .cos [a]) (number (Scalar.ofNat 2)))
  | .sqrt => .div (number 1) (.mul (number (Scalar.ofNat 2)) (call .sqrt [a]))
  | .log  => .div (number 1) a

-- The derivative by the rules of the textbook, where nothing is folded and nothing is left out. A
-- call with any other number of arguments than one has no derivative, and stands for nothing.
def derivative (name : String) (t : Expr α) : Expr α :=
  match t with
  | number _ | constant _ => number 0
  | var x                 => number (if x = name then 1 else 0)
  | .neg a                => .neg (a.derivative name)
  | .add a b              => .add (a.derivative name) (b.derivative name)
  | .sub a b              => .sub (a.derivative name) (b.derivative name)
  | .mul a b              => .add (.mul (a.derivative name) b) (.mul a (b.derivative name))
  | .div a b              =>
    .div (.sub (.mul (a.derivative name) b) (.mul a (b.derivative name)))
      (.pow b (number (Scalar.ofNat 2)))
  | .pow a b              =>
    if b.contains name then
      .mul (.pow a b) (.add (.mul (b.derivative name) (call .log [a]))
        (.div (.mul b (a.derivative name)) a))
    else
      .mul (.mul b (.pow a (.sub b (number 1)))) (a.derivative name)
  | call f [a]            => .mul (outerDerivative f a) (a.derivative name)
  | call f args           => call f args
termination_by structural t

end Rules

end Expr

variable {K : Type} [Field K] [LinearOrder K] {I : Interpretation K} {values : String → Exact I}

namespace Exact

variable {x x' y y' z l : Exact I}

-- What is left of the rules where a part has the derivative zero.

theorem refines_constant_mul (hx : Refines x' 0) : Refines (x' * y + x * y') (x * y') := by
  have hleft := (hx.mul (.refl y)).trans (.zero_mul y)
  exact (hleft.add (.refl _)).trans (.of_eq (zero_add _))

theorem refines_mul_constant (hy : Refines y' 0) : Refines (x' * y + x * y') (x' * y) := by
  have hright := ((Refines.refl x).mul hy).trans (.mul_zero x)
  exact ((Refines.refl _).add hright).trans (.of_eq (add_zero _))

theorem refines_div_constant (hsq : ∀ {u w}, I.pow u 2 = some w → w = u * u) (hy : Refines y' 0) :
    Refines ((x' * y - x * y') / Scalar.pow y (Scalar.ofNat 2)) (x' / y) := by
  have hright := ((Refines.refl x).mul hy).trans (.mul_zero x)
  have hnumerator := ((Refines.refl (x' * y)).sub hright).trans (.of_eq (Exact.sub_zero _))
  refine (hnumerator.div (.refl _)).trans fun k hk => ?_
  obtain ⟨c, w, hc, hw, hne, rfl⟩ := div_eq_some_iff.mp hk
  obtain ⟨a, b, ha, rfl, rfl⟩ := mul_eq_some_iff.mp hc
  have hb : w = b * b := hsq (by rw [← hw, ← Nat.cast_ofNat]; rfl)
  have hb₀ : b ≠ 0 := fun h => hne (by rw [hb, h, MulZeroClass.mul_zero])
  exact div_eq_some_iff.mpr ⟨a, b, ha, rfl, hb₀, by rw [hb, mul_div_mul_right a b hb₀]⟩

theorem refines_constant_pow (hx : Refines x' 0) :
    Refines (z * (y' * l + y * x' / x)) (z * l * y') := by
  have hproduct := ((Refines.refl y).mul hx).trans (.mul_zero y)
  have hright := (hproduct.div (.refl x)).trans (refines_zero_div x)
  have hsum := ((Refines.refl (y' * l)).add hright).trans (.of_eq (add_zero _))
  exact ((Refines.refl z).mul hsum).trans (.of_eq (by rw [mul_comm y', mul_assoc]))

end Exact

namespace Expr

open Exact

variable {name : String} {t a r : Expr (Exact I)}

-- What the variable does not occur in has the derivative zero, by the rules as well.
theorem refines_derivative_zero (h : ¬t.contains name) :
    Refines ((t.derivative name).denote values) 0 := by
  induction t with
  | number x   => exact .refl _
  | constant c => exact .refl _
  | var x      =>
    have hx : x ≠ name := fun hx => h (beq_iff_eq.mpr hx)
    rw [derivative, if_neg hx]
    exact .refl _
  | neg a ih   => exact (Refines.neg (ih h)).trans (.of_eq Exact.neg_zero)
  | binary op a b iha ihb =>
    have ⟨ha, hb⟩ := not_or.mp (mt Bool.or_eq_true_iff.mpr h)
    replace iha := iha ha
    replace ihb := ihb hb
    have hproducts : Refines ((Expr.mul (a.derivative name) b).denote values) 0 :=
      (iha.mul (.refl _)).trans (.zero_mul _)
    have hproducts' : Refines ((Expr.mul a (b.derivative name)).denote values) 0 :=
      ((Refines.refl _).mul ihb).trans (.mul_zero _)
    cases op with
    | add => exact (iha.add ihb).trans (.of_eq (add_zero 0))
    | sub => exact (iha.sub ihb).trans (.of_eq (Exact.sub_zero 0))
    | mul => exact (hproducts.add hproducts').trans (.of_eq (add_zero 0))
    | div =>
      have hnumerator := (hproducts.sub hproducts').trans (.of_eq (Exact.sub_zero 0))
      exact (hnumerator.div (.refl _)).trans (refines_zero_div _)
    | pow =>
      rw [derivative, if_neg hb]
      exact ((Refines.refl _).mul iha).trans (.mul_zero _)
  | call f args ih =>
    cases args with
    | nil => nofun
    | cons a as =>
      cases as with
      | cons => nofun
      | nil =>
        have ha : ¬a.contains name := fun ha => h (Bool.or_eq_true_iff.mpr (.inl ha))
        exact ((Refines.refl _).mul (ih a List.mem_cons_self ha)).trans (.mul_zero _)

theorem preserves_slope (hI : I.Exponential) (f : Elementary) (a : Expr (Exact I)) :
    Preserves values (outerDerivative f a) (slope f a) := by
  cases f with
  | sin  => exact .refl _
  | cos  => exact Folded.preserves_neg _
  | tan  =>
    exact ((Refines.refl _).div (Folded.preserves_pow hI _ _)).trans (Folded.preserves_div _ _)
  | sqrt =>
    exact ((Refines.refl _).div (Folded.preserves_mul _ _)).trans (Folded.preserves_div _ _)
  | log  => exact Folded.preserves_div _ _

-- A rule and the folding after it.
theorem Preserves.binary {op : Operator} {a b a' b' r : Expr (Exact I)}
    (ha : Preserves values a a') (hb : Preserves values b b')
    (h : Preserves values (.binary op a' b') r) : Preserves values (.binary op a b) r :=
  (Refines.apply op ha hb).trans h

theorem preserves_derivative_of_derived (hI : I.Exponential)
    (hsq : ∀ {u w}, I.pow u 2 = some w → w = u * u)
    (h : Derived name (fun t r => Preserves values (t.derivative name) r) t r) :
    Preserves values (t.derivative name) r := by
  cases h with
  | constant ht => exact refines_derivative_zero ht
  | var         => rw [derivative, if_pos rfl]; exact .refl _
  | neg ha      => exact (Refines.neg ha).trans (Folded.preserves_neg _)
  | add ha hb   => exact .binary ha hb (Folded.preserves_add _ _)
  | sub ha hb   => exact .binary ha hb (Folded.preserves_sub _ _)
  | @constant_mul a b b' hac hb =>
    have hproduct : Preserves values (.mul a (b.derivative name)) (Folded.mul a b') :=
      .binary (.refl _) hb (Folded.preserves_mul _ _)
    exact (refines_constant_mul (refines_derivative_zero hac)).trans hproduct
  | @mul_constant a a' b hbc ha =>
    have hproduct : Preserves values (.mul (a.derivative name) b) (Folded.mul a' b) :=
      .binary ha (.refl _) (Folded.preserves_mul _ _)
    exact (refines_mul_constant (refines_derivative_zero hbc)).trans hproduct
  | mul ha hb =>
    refine .binary ?_ ?_ (Folded.preserves_add _ _)
    · exact .binary ha (.refl _) (Folded.preserves_mul _ _)
    · exact .binary (.refl _) hb (Folded.preserves_mul _ _)
  | @div_constant a a' b hbc ha =>
    have hquotient : Preserves values (.div (a.derivative name) b) (Folded.div a' b) :=
      .binary ha (.refl _) (Folded.preserves_div _ _)
    exact (refines_div_constant hsq (refines_derivative_zero hbc)).trans hquotient
  | div ha hb =>
    refine .binary (.binary ?_ ?_ (Folded.preserves_sub _ _)) (Folded.preserves_pow hI _ _)
      (Folded.preserves_div _ _)
    · exact .binary ha (.refl _) (Folded.preserves_mul _ _)
    · exact .binary (.refl _) hb (Folded.preserves_mul _ _)
  | @pow_constant a a' b hbc ha =>
    rw [derivative, if_neg hbc]
    have hreduced : Preserves values (.pow a (.sub b (.number 1)))
        (Folded.pow a (Folded.sub b (.number 1))) :=
      .binary (.refl _) (Folded.preserves_sub _ _) (Folded.preserves_pow hI _ _)
    refine .binary ?_ ha (Folded.preserves_mul _ _)
    exact .binary (.refl _) hreduced (Folded.preserves_mul _ _)
  | @constant_pow a b b' hac hbc hb =>
    rw [derivative, if_pos hbc]
    have hlog : Preserves values (.mul (.pow a b) (.call .log [a]))
        (Folded.mul (.pow a b) (Folded.log a)) :=
      .binary (.refl _) (Folded.preserves_log hI a) (Folded.preserves_mul _ _)
    have hproduct : Preserves values (.mul (.mul (.pow a b) (.call .log [a])) (b.derivative name))
        (Folded.mul (Folded.mul (.pow a b) (Folded.log a)) b') :=
      .binary hlog hb (Folded.preserves_mul _ _)
    exact (refines_constant_pow (refines_derivative_zero hac)).trans hproduct
  | pow hbc ha hb =>
    rw [derivative, if_pos hbc]
    refine .binary (.refl _) (.binary ?_ ?_ (Folded.preserves_add _ _)) (Folded.preserves_mul _ _)
    · exact .binary hb (Folded.preserves_log hI _) (Folded.preserves_mul _ _)
    · refine .binary ?_ (.refl _) (Folded.preserves_div _ _)
      exact .binary (.refl _) ha (Folded.preserves_mul _ _)
  | call ha =>
    rw [derivative]
    exact .binary (preserves_slope hI _ _) ha (Folded.preserves_mul _ _)

-- A derivative stands for what the rules give, wherever that is defined. What is folded and left
-- out on the way needs no other laws than these.
theorem denote_differentiate (hI : I.Exponential)
    (hsq : ∀ {u w}, I.pow u 2 = some w → w = u * u) {config : Config (Exact I)} {v : K}
    (h : t.differentiate config name = .ok r) (hd : (t.derivative name).denote values = some v) :
    r.denote values = some v :=
  differentiate_induct (fun _ _ => preserves_derivative_of_derived hI hsq) h v hd

end Expr

namespace Interpretation

def natural : Interpretation ℚ where
  __ := rational
  elementary f x :=
    if f = .log ∧ x = rational.constant .e then some 1 else rational.elementary f x

theorem exponential_natural : natural.Exponential where
  pow_zero := lawful_rational.pow_zero
  pow_one  := lawful_rational.pow_one
  log_e    := if_pos ⟨rfl, rfl⟩

theorem eq_mul_self_of_pow_natural {u w : ℚ} (h : natural.pow u 2 = some w) : w = u * u := by
  have ⟨_, hw⟩ := pow_rational_iff.mp h
  rw [← hw, ← pow_two]
  rfl

-- Powers that stay at the base from the first one on.
def stationary : Interpretation ℚ where
  __ := natural
  pow u v := some (if v = 0 then 1 else u)

theorem exponential_stationary : stationary.Exponential where
  pow_zero _ := rfl
  pow_one _  := rfl
  log_e      := exponential_natural.log_e

end Interpretation

namespace Expr

-- The divisor is a constant, and the logarithm of `e` is dropped.
theorem denote_differentiate_of_exponential :
    let x : Expr (Exact .natural) := .var "x"
    let n (q : ℚ) : Expr (Exact .natural) := .number (some q)
    let t := add (div (pow x (n 3)) (n 2)) (pow (constant .e) x)
    let r := add (div (mul (n 3) (pow x (n 2))) (n 2)) (pow (constant .e) x)
    let config : Config (Exact .natural) := ⟨⟨200, 1000⟩, 0, 0, 8⟩
    Interpretation.natural.Exponential ∧
      (∀ {u w}, Interpretation.natural.pow u 2 = some w → w = u * u) ∧
      t.differentiate config "x" = .ok r ∧
      (t.derivative "x").denote (fun _ => some 2) = some (6 + (193 / 71) ^ 2) ∧
      r.denote (fun _ => some 2) = some (6 + (193 / 71) ^ 2) := by
  intro x n t r config
  have h : t.differentiate config "x" = .ok r := by with_unfolding_all rfl
  have hd : (t.derivative "x").denote (fun _ => some 2) = some (6 + (193 / 71) ^ 2) := by
    with_unfolding_all rfl
  exact ⟨Interpretation.exponential_natural, Interpretation.eq_mul_self_of_pow_natural, h, hd,
    denote_differentiate Interpretation.exponential_natural
      Interpretation.eq_mul_self_of_pow_natural h hd⟩

-- Where squares are not products, a quotient by a constant is not what the quotient rule says.
theorem denote_differentiate_ne_of_square :
    let x : Expr (Exact .stationary) := .var "x"
    let y : Expr (Exact .stationary) := .var "y"
    let t := div x y
    let r := div (number 1) y
    let config : Config (Exact .stationary) := ⟨⟨200, 1000⟩, 0, 0, 8⟩
    Interpretation.stationary.Exponential ∧
      t.differentiate config "x" = .ok r ∧
      (t.derivative "x").denote (fun _ => some 2) = some 1 ∧
      r.denote (fun _ => some 2) = some (1 / 2) := by
  intro x y t r config
  refine ⟨Interpretation.exponential_stationary, ?_, ?_, ?_⟩
  all_goals with_unfolding_all rfl

end Expr

end InfixAlgebra
