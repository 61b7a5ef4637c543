import InfixAlgebra.Proofs.Decimal.Layout
import InfixAlgebra.Proofs.Double.Unsigned

namespace InfixAlgebra

theorem Numeral.ofList?_toList {n : Numeral} (h : n.WellFormed) : ofList? n.toList = some n := by
  have hscan := scan_toList_append h HeadNot.nil
  rw [List.append_nil] at hscan
  simp [ofList?, hscan, length_toList]

namespace Double

open Binary64 Layout

variable {x y : Float} {digits : List Char} {leading : Int} {c : Char} {cs : List Char}

-- No name of a special number begins like this.
theorem unsigned?_cons (hc : c.toLower ≠ 'i' ∧ c.toLower ≠ 'n') :
    ofText?.unsigned? (c :: cs) = (Numeral.ofList? (c :: cs)).map fun n => ofDecimal n.decimal := by
  unfold ofText?.unsigned?
  split
  case h_4 => rfl
  all_goals
    rename_i heq
    have hhead := congrArg (·.toList.head?) heq
    simp [hc] at hhead

theorem unsigned?_toList {n : Numeral} (h : n.WellFormed) :
    ofText?.unsigned? n.toList = some (ofDecimal n.decimal) := by
  have ⟨c, cs, hcs, hc⟩ := h.exists_cons
  have hl : c.toLower ≠ 'i' ∧ c.toLower ≠ 'n' :=
    of_decide_eq_true (@of_isDigit (fun d => decide (d.toLower ≠ 'i' ∧ d.toLower ≠ 'n')) c rfl hc)
  rw [hcs, unsigned?_cons hl, ← hcs, Numeral.ofList?_toList h]
  rfl

theorem ofText?_ofList (hc : c ≠ '-' ∧ c ≠ '+') :
    ofText? (String.ofList (c :: cs)) = ofText?.unsigned? (c :: cs) := by
  unfold ofText?
  rw [String.toList_ofList]
  split
  case h_3 => rfl
  all_goals
    rename_i heq
    simp_all

theorem ofText?_negative : ofText? ("-" ++ String.ofList cs) = (ofText?.unsigned? cs).map (-·) := by
  simp [ofText?]

theorem unsigned_plain :
    plain.unsigned digits leading = (positionalNumeral digits leading).toList := by
  simp [Layout.unsigned, isPositional, plain, positional_eq_toList]

theorem unsigned_scientific :
    scientific.unsigned digits leading = (scientific.exponentialNumeral digits leading).toList := by
  have hp : scientific.isPositional leading = false := by
    simp [isPositional, scientific]
  rw [Layout.unsigned, hp]
  exact exponential_eq_toList (by decide)

-- Without digits there is no numeral.
theorem ne_nil_of_scientific (h : ofText?.unsigned? (scientific.unsigned digits leading) = some y) :
    digits ≠ [] := by
  rintro rfl
  rw [unsigned_scientific] at h
  have htext : (scientific.exponentialNumeral [] leading).toList =
      'e' :: ((scientific.exponentialNumeral [] leading).toList.tail) := by
    simp [exponentialNumeral, Numeral.toList, Numeral.Power.toList]
  rw [htext, unsigned?_cons (by decide)] at h
  simp [Numeral.ofList?, Numeral.scan] at h

-- Digits are displayed in one of two ways, and whoever reads both of them back reads the displayed
-- numeral.
theorem exists_numeral_of_unsigned (hd : ∀ c ∈ digits, c.isDigit)
    (hp : ofText?.unsigned? (plain.unsigned digits leading) = some y)
    (hs : ofText?.unsigned? (scientific.unsigned digits leading) = some y) :
    ∃ n : Numeral, n.WellFormed ∧ display.unsigned digits leading = n.toList ∧
      ofDecimal n.decimal = y := by
  have hne := ne_nil_of_scientific hs
  refine ⟨display.numeral digits leading, wellFormed_numeral (.inr rfl) hd hne,
    unsigned_eq_toList rfl (by decide), ?_⟩
  unfold numeral
  split
  case isTrue =>
    rw [unsigned_plain, unsigned?_toList (wellFormed_positionalNumeral hd)] at hp
    exact Option.some.inj hp
  case isFalse =>
    have hw : (scientific.exponentialNumeral digits leading).WellFormed :=
      wellFormed_exponentialNumeral (.inl rfl) hd hne
    rw [unsigned_scientific, unsigned?_toList hw] at hs
    rw [decimal_exponentialNumeral (m := scientific) (.inr rfl) (.inl rfl)]
    exact Option.some.inj hs

-- The texts with all digits and with one digit before the point both stand for the number.
structure ReadsBack (x : Float) : Prop where
  plain      : ofText? (NumberText.plain x) = some x
  scientific : ofText? (NumberText.scientific x) = some x

theorem ofText?_plain (hd : ∀ c ∈ digits, c.isDigit) :
    ofText? (String.ofList (plain.unsigned digits leading)) =
      ofText?.unsigned? (plain.unsigned digits leading) := by
  have hw : (positionalNumeral digits leading).WellFormed := wellFormed_positionalNumeral hd
  have ⟨c, cs, hcs, hc⟩ := hw.exists_cons
  rw [unsigned_plain, hcs]
  refine ofText?_ofList ?_
  constructor <;> (rintro rfl; revert hc; decide)

theorem ofText?_scientific (hd : ∀ c ∈ digits, c.isDigit) :
    ofText? (String.ofList (scientific.unsigned digits leading)) =
      ofText?.unsigned? (scientific.unsigned digits leading) := by
  rw [unsigned_scientific]
  cases digits with
  | nil =>
    have htext : (scientific.exponentialNumeral [] leading).toList =
        'e' :: ((scientific.exponentialNumeral [] leading).toList.tail) := by
      simp [exponentialNumeral, Numeral.toList, Numeral.Power.toList]
    rw [htext]
    exact ofText?_ofList (by decide)
  | cons d ds =>
    have hw : (scientific.exponentialNumeral (d :: ds) leading).WellFormed :=
      wellFormed_exponentialNumeral (.inl rfl) hd (by simp)
    obtain ⟨c, cs, hcs, hc⟩ := hw.exists_cons
    rw [hcs]
    refine ofText?_ofList ?_
    constructor <;> (rintro rfl; revert hc; decide)

theorem display_of_lt (hx : x.isFinite) (hr : ReadsBack x) (hlt : Scalar.lt x 0) :
    ∃ n : Numeral, n.WellFormed ∧ (NumberText.display x).toList = '-' :: n.toList ∧
      ofDecimal n.decimal = -x := by
  rcases zero_or_finite hx with ⟨s, hz⟩ | ⟨s, m, e, h, hf⟩
  case inl => simp [lt_zero_of_zero hz] at hlt
  case inr =>
    rw [lt_zero_of_finite hf] at hlt
    have hw := writable_of_finite hf
    rw [hlt] at hw
    have ⟨hp, hs⟩ := hr
    simp only [NumberText.plain, NumberText.scientific, Function.comp, hw, write, signed, if_true,
      ofText?_negative, Option.map_eq_some_iff] at hp hs
    have ⟨y, hp, hy⟩ := hp
    have ⟨z, hs, hz⟩ := hs
    have hd {c} := @isDigit_of_mem_significant ((neighbourhood ⟨m, e⟩).shortest .up) c
    obtain rfl : y = -x := by rw [← hy, neg_neg]
    obtain rfl : z = -x := by rw [← hz, neg_neg]
    have ⟨n, hn, htext, hval⟩ := exists_numeral_of_unsigned (fun c => hd) hp hs
    refine ⟨n, hn, ?_, hval⟩
    simp only [NumberText.display, Function.comp, hw, write, signed, if_true]
    simp only [String.toList_append, String.toList_ofList, ← htext]
    rfl

theorem display_of_not_lt (hx : x.isFinite) (hr : ReadsBack x) (hlt : Scalar.lt x 0 = false) :
    ∃ n : Numeral, n.WellFormed ∧ (NumberText.display x).toList = n.toList ∧
      ofDecimal n.decimal = if x == 0 then 0 else x := by
  rcases zero_or_finite hx with ⟨s, hz⟩ | ⟨s, m, e, h, hf⟩
  case inl =>
    have hzero : (x == 0) = true := by
      rw [beq_eq, hz]
      rfl
    rw [hzero]
    refine ⟨⟨['0'], none, none⟩, ⟨by simp, by simp, nofun, nofun⟩, ?_, rfl⟩
    simp only [NumberText.display, Function.comp, writable_of_zero hz, write]
    rw [show display.signedZero = false from rfl, Bool.and_false]
    rfl
  case inr =>
    have hne : (x == 0) = false := by
      rw [beq_eq, hf]
      cases s <;> rfl
    rw [hne]
    rw [lt_zero_of_finite hf] at hlt
    have hw := writable_of_finite hf
    rw [hlt] at hw
    have ⟨hp, hs⟩ := hr
    have hd {c} := @isDigit_of_mem_significant ((neighbourhood ⟨m, e⟩).shortest .up) c
    simp only [NumberText.plain, NumberText.scientific, Function.comp, hw, write, signed] at hp hs
    rw [if_neg (by simp)] at hp hs
    have hp := (ofText?_plain (fun c => hd)).symm.trans hp
    have hs := (ofText?_scientific (fun c => hd)).symm.trans hs
    have ⟨n, hn, htext, hval⟩ := exists_numeral_of_unsigned (fun c => hd) hp hs
    refine ⟨n, hn, ?_, hval⟩
    simp only [NumberText.display, Function.comp, hw, write, signed]
    rw [if_neg (by simp), String.toList_ofList, ← htext]
    rfl

end Double

end InfixAlgebra
