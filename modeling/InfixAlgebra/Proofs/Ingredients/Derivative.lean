import InfixAlgebra.Proofs.Derivative.Steps
import InfixAlgebra.Proofs.Ingredients.Basic

namespace InfixAlgebra

variable {α : Type} [Scalar α] {I : Ingredients α} (hI : I.Closed)

include hI

namespace Expr

variable {t r a b c d : Expr α} {x : α}

theorem MadeOf.zero : (Expr.number 0 : Expr α).MadeOf I :=
  .number hI.zero

theorem MadeOf.one : (Expr.number 1 : Expr α).MadeOf I :=
  .number hI.one

theorem MadeOf.two : (Expr.number (Scalar.ofNat 2) : Expr α).MadeOf I :=
  .number (hI.natural (by decide))

omit hI in
theorem MadeOf.of_reciprocal? (h : Folded.reciprocal? a = some d) (ha : a.MadeOf I) :
    d.MadeOf I := by
  unfold Folded.reciprocal? at h
  split at h
  case h_1 =>
    split at h
    case isTrue  => cases h; exact ha.of_binary.2
    case isFalse => cases h
  case h_2 => cases h

-- Folding at the root needs no other ingredients.

namespace MadeOf

theorem folded_neg (ha : a.MadeOf I) : (Folded.neg a).MadeOf I := by
  unfold Folded.neg
  split
  case h_1 x => exact .number (hI.neg ha.of_number)
  case h_2 b => exact ha.of_neg
  case h_3   => exact .neg ha

theorem folded_add (ha : a.MadeOf I) (hb : b.MadeOf I) : (Folded.add a b).MadeOf I := by
  unfold Folded.add
  split
  case isTrue => exact hb
  case isFalse =>
    split
    case isTrue => exact ha
    case isFalse =>
      refine getD_fold? hI ?_
      split
      case h_1 c => exact .binary .sub ha hb.of_neg
      case h_2   => exact .binary .add ha hb

theorem folded_sub (ha : a.MadeOf I) (hb : b.MadeOf I) : (Folded.sub a b).MadeOf I := by
  unfold Folded.sub
  split
  case isTrue => exact ha
  case isFalse =>
    split
    case isTrue => exact hb.folded_neg hI
    case isFalse =>
      refine getD_fold? hI ?_
      split
      case h_1 c => exact .binary .add ha hb.of_neg
      case h_2   => exact .binary .sub ha hb

theorem folded_div (ha : a.MadeOf I) (hb : b.MadeOf I) : (Folded.div a b).MadeOf I := by
  unfold Folded.div
  split
  case isTrue => exact ha
  case isFalse =>
    split
    case isTrue  => exact .zero hI
    case isFalse => exact getD_fold? hI (.binary .div ha hb)

theorem folded_scale (hx : I.number x) (hb : b.MadeOf I) : (Folded.scale x b).MadeOf I := by
  induction x, b using Folded.scale.induct with
  | case1 b x h =>
    rw [Folded.scale.eq_def, if_pos h]
    exact .zero hI
  | case2 b x h₀ h₁ =>
    rw [Folded.scale.eq_def, if_neg h₀, if_pos h₁]
    exact hb
  | case3 b x h₀ h₁ hone =>
    rw [Folded.scale.eq_def, if_neg h₀, if_neg h₁, if_pos hone]
    exact .number hx
  | case4 b x h₀ h₁ hone ih =>
    rw [Folded.scale.eq_def, if_neg h₀, if_neg h₁, if_neg hone]
    refine getD_fold? hI ?_
    split
    case isTrue => exact hb.folded_neg hI
    case isFalse =>
      split
      case isTrue => exact .number (hI.neg hx)
      case isFalse =>
        split
        case h_1 d hd => exact folded_div hI (.number hx) (hb.of_reciprocal? hd)
        case h_2 =>
          split
          case h_1 y rest _ _ =>
            have ⟨hy, hrest⟩ := hb.of_binary
            exact ih (hI.mul hx hy.of_number) hrest
          case h_2 => exact .binary .mul (.number hx) hb

theorem folded_mul (ha : a.MadeOf I) (hb : b.MadeOf I) : (Folded.mul a b).MadeOf I := by
  unfold Folded.mul
  split
  case h_1 x => exact folded_scale hI ha.of_number hb
  case h_2 =>
    split
    case isTrue => exact .zero hI
    case isFalse =>
      split
      case isTrue => exact ha
      case isFalse =>
        split
        case isTrue => exact ha.folded_neg hI
        case isFalse =>
          cases hda : Folded.reciprocal? a with
          | some d => exact hb.folded_div hI (ha.of_reciprocal? hda)
          | none =>
            cases hdb : Folded.reciprocal? b with
            | some d => exact ha.folded_div hI (hb.of_reciprocal? hdb)
            | none =>
              split
              case h_3 y _ _ => exact folded_scale hI hb.of_number ha
              case h_4       => exact .binary .mul ha hb
              all_goals contradiction

theorem folded_pow (ha : a.MadeOf I) (hb : b.MadeOf I) : (Folded.pow a b).MadeOf I := by
  unfold Folded.pow
  split
  case isTrue => exact .one hI
  case isFalse =>
    split
    case isTrue  => exact ha
    case isFalse => exact getD_fold? hI (.binary .pow ha hb)

theorem call_one (f : Elementary) (ha : a.MadeOf I) : (Expr.call f [a]).MadeOf I :=
  .call f hI.single (List.forall_mem_singleton.mpr ha)

theorem folded_log (ha : a.MadeOf I) : (Folded.log a).MadeOf I := by
  unfold Folded.log
  split
  case h_1 => exact .one hI
  case h_2 => exact ha.call_one hI .log

theorem slope (f : Elementary) (ha : a.MadeOf I) : (slope f a).MadeOf I := by
  have hone := MadeOf.one hI
  cases f with
  | sin  => exact ha.call_one hI .cos
  | cos  => exact (ha.call_one hI .sin).folded_neg hI
  | tan  => exact hone.folded_div hI ((ha.call_one hI .cos).folded_pow hI (.two hI))
  | sqrt => exact hone.folded_div hI ((MadeOf.two hI).folded_mul hI (ha.call_one hI .sqrt))
  | log  => exact hone.folded_div hI ha

end MadeOf

variable {name : String} {config : Config α}

theorem madeOf_of_derived (h : Derived name (fun t r => t.MadeOf I → r.MadeOf I) t r)
    (ht : t.MadeOf I) : r.MadeOf I := by
  cases h with
  | constant => exact .zero hI
  | var      => exact .one hI
  | neg ha   => exact (ha ht.of_neg).folded_neg hI
  | add ha hb =>
    have ⟨ha', hb'⟩ := ht.of_binary
    exact (ha ha').folded_add hI (hb hb')
  | sub ha hb =>
    have ⟨ha', hb'⟩ := ht.of_binary
    exact (ha ha').folded_sub hI (hb hb')
  | constant_mul _ hb =>
    have ⟨ha', hb'⟩ := ht.of_binary
    exact ha'.folded_mul hI (hb hb')
  | mul_constant _ ha =>
    have ⟨ha', hb'⟩ := ht.of_binary
    exact (ha ha').folded_mul hI hb'
  | mul ha hb =>
    have ⟨ha', hb'⟩ := ht.of_binary
    exact ((ha ha').folded_mul hI hb').folded_add hI (ha'.folded_mul hI (hb hb'))
  | div_constant _ ha =>
    have ⟨ha', hb'⟩ := ht.of_binary
    exact (ha ha').folded_div hI hb'
  | div ha hb =>
    have ⟨ha', hb'⟩ := ht.of_binary
    have hnumerator := ((ha ha').folded_mul hI hb').folded_sub hI (ha'.folded_mul hI (hb hb'))
    exact hnumerator.folded_div hI (hb'.folded_pow hI (.two hI))
  | pow_constant _ ha =>
    have ⟨ha', hb'⟩ := ht.of_binary
    have hreduced := ha'.folded_pow hI (hb'.folded_sub hI (.one hI))
    exact (hb'.folded_mul hI hreduced).folded_mul hI (ha ha')
  | constant_pow _ _ hb =>
    have ⟨ha', hb'⟩ := ht.of_binary
    exact (ht.folded_mul hI (ha'.folded_log hI)).folded_mul hI (hb hb')
  | pow _ ha hb =>
    have ⟨ha', hb'⟩ := ht.of_binary
    have hleft := (hb hb').folded_mul hI (ha'.folded_log hI)
    have hright := (hb'.folded_mul hI (ha ha')).folded_div hI ha'
    exact ht.folded_mul hI (hleft.folded_add hI hright)
  | @call f a a' ha =>
    have ha' := ht.of_call.2 a (List.mem_singleton_self a)
    exact (ha'.slope hI f).folded_mul hI (ha ha')

-- A derivative is made of what the expression is made of.
theorem MadeOf.differentiate (h : t.differentiate config name = .ok r) (ht : t.MadeOf I) :
    r.MadeOf I :=
  differentiate_induct (fun _ _ => madeOf_of_derived hI) h ht

end Expr

end InfixAlgebra
