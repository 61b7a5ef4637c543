import InfixAlgebra.Json.Reader
import InfixAlgebra.Proofs.Decimal.Layout
import InfixAlgebra.Proofs.Decimal.Shortest

namespace InfixAlgebra

namespace Layout

open Decimal

variable {digits : List Char} {leading : Int} {d : Decimal}

structure Lead (digits : List Char) (leading : Int) : Prop where
  isDigit  : ∀ c ∈ digits, c.isDigit
  nonempty : digits ≠ []
  zero     : digits.head? = some '0' → digits = ['0'] ∧ leading = 0

theorem lead_zero : Lead ['0'] 0 :=
  ⟨by simp, by simp, fun _ => ⟨rfl, rfl⟩⟩

def valueOf (digits : List Char) (leading : Int) : ℚ :=
  natOfDigits digits * 10 ^ (leading + 1 - digits.length)

theorem value_eq_valueOf {n : Nat} (hdigits : d.digits = natOfDigits digits * 10 ^ n)
    (hexponent : d.exponent + n = leading + 1 - digits.length) :
    d.value = valueOf digits leading := by
  rw [valueOf, ← hexponent, Decimal.value, hdigits, zpow_add₀ (by norm_num), zpow_natCast]
  push_cast
  ring

theorem natOfDigits_append_zeros (digits : List Char) (n : Nat) :
    natOfDigits (digits ++ zeros n) = natOfDigits digits * 10 ^ n := by
  change Nat.ofDigitChars 10 (digits ++ List.replicate n '0') 0 = _
  rw [Nat.ofDigitChars_append, Nat.ofDigitChars_replicate_zero, Nat.mul_comm]
  rfl

theorem natOfDigits_zeros_append (digits : List Char) (n : Nat) :
    natOfDigits (zeros n ++ digits) = natOfDigits digits := by
  change Nat.ofDigitChars 10 (List.replicate n '0' ++ digits) 0 = _
  rw [Nat.ofDigitChars_append, Nat.ofDigitChars_replicate_zero, Nat.mul_zero]
  rfl

theorem natOfDigits_toDigits (n : Nat) : natOfDigits (Nat.toDigits 10 n) = n :=
  Nat.ofDigitChars_ten_toDigits

-- The digits of a decimal.

theorem head?_toDigits {n : Nat} (hn : 0 < n) : (Nat.toDigits 10 n).head? ≠ some '0' := by
  induction n using Nat.strongRecOn with
  | ind n ih =>
    rcases Nat.lt_or_ge n 10 with hlt | hge
    case inl => simp [Nat.toDigits_of_lt_base hlt, hn.ne']
    case inr =>
      have hquotient := ih (n / 10) (by omega) (by omega)
      rw [Nat.toDigits_of_base_le (by decide) hge, List.head?_append]
      cases hd : (Nat.toDigits 10 (n / 10)).head? with
      | none   => simp [Nat.toDigits_ne_nil] at hd
      | some c => simpa [hd] using hquotient

-- What is left out at the end are zeros.
theorem exists_significant (d : Decimal) :
    ∃ n, Nat.toDigits 10 d.digits = (significant d).1 ++ zeros n := by
  let dropped := (Nat.toDigits 10 d.digits).reverse.takeWhile (· == '0')
  have hzeros : dropped.reverse = zeros dropped.length := by
    refine List.eq_replicate_iff.mpr ⟨List.length_reverse, fun c hc => ?_⟩
    simpa using List.mem_takeWhile_imp (List.mem_reverse.mp hc)
  refine ⟨dropped.length, ?_⟩
  rw [← hzeros, significant, ← List.reverse_append, List.takeWhile_append_dropWhile,
    List.reverse_reverse]

theorem lead_significant (h : 0 < d.digits) : Lead (significant d).1 (significant d).2 := by
  have ⟨n, hn⟩ := exists_significant d
  have hhead := head?_toDigits h
  have hne : Nat.toDigits 10 d.digits ≠ [] := Nat.toDigits_ne_nil
  rw [hn] at hhead hne
  have hdigits {c : Char} := @isDigit_of_mem_significant d c
  generalize (significant d).1 = cs at *
  cases cs with
  | nil       => cases n <;> simp_all [zeros, List.replicate_succ]
  | cons c cs => exact ⟨fun _ => hdigits, by simp, fun hc => absurd hc hhead⟩

theorem valueOf_significant (d : Decimal) :
    valueOf (significant d).1 (significant d).2 = d.value := by
  have ⟨n, hn⟩ := exists_significant d
  have hlength : (Nat.toDigits 10 d.digits).length = (significant d).1.length + n := by
    rw [hn, List.length_append, zeros, List.length_replicate]
  refine (value_eq_valueOf (n := n) ?_ ?_).symm
  · rw [← natOfDigits_append_zeros, ← hn, natOfDigits_toDigits]
  · change d.exponent + n = d.exponent + (Nat.toDigits 10 d.digits).length - 1 + 1 - _
    rw [hlength]
    omega

-- Numerals in data files.

def pointed (n : Numeral) : Numeral :=
  { n with fraction := some (n.fraction.getD ['0']) }

def dataNumeral (digits : List Char) (leading : Int) : Numeral :=
  if json.isPositional leading then
    pointed (positionalNumeral digits leading)
  else
    json.exponentialNumeral digits leading

theorem positional_json :
    json.positional digits leading = (pointed (positionalNumeral digits leading)).toList := by
  unfold positional positionalNumeral
  split
  case isTrue => simp [pointed, Numeral.toList]
  case isFalse =>
    simp only
    split <;> simp [pointed, Numeral.toList, json]

theorem unsigned_json : json.unsigned digits leading = (dataNumeral digits leading).toList := by
  unfold unsigned dataNumeral
  split
  case isTrue  => exact positional_json
  case isFalse => exact exponential_eq_toList (by decide)

theorem wellFormed_dataNumeral (h : Lead digits leading) :
    (dataNumeral digits leading).WellFormed := by
  unfold dataNumeral
  split
  case isTrue =>
    have hw : (positionalNumeral digits leading).WellFormed :=
      wellFormed_positionalNumeral h.isDigit
    refine ⟨hw.whole, hw.nonempty, ?_, hw.power⟩
    rintro _ ⟨⟩ c hc
    cases hf : (positionalNumeral digits leading).fraction <;> rw [hf] at hc
    case none    => simp at hc; rw [hc]; rfl
    case some fs => exact hw.fraction fs hf c hc
  case isFalse => exact wellFormed_exponentialNumeral (.inr rfl) h.isDigit h.nonempty

theorem isNumeral_cons {c : Char} {cs : List Char} {f : Option (List Char)}
    {p : Option Numeral.Power} (hc : c = '0' → cs = []) (hf : f ≠ some []) :
    Json.Read.isNumeral ⟨c :: cs, f, p⟩ := by
  unfold Json.Read.isNumeral
  split <;> simp_all

theorem isNumeral_dataNumeral (h : Lead digits leading) :
    Json.Read.isNumeral (dataNumeral digits leading) := by
  obtain ⟨c, cs, rfl⟩ := List.exists_cons_of_ne_nil h.nonempty
  have hzero := h.zero
  unfold dataNumeral
  split
  case isTrue =>
    unfold pointed positionalNumeral
    split
    case isTrue => exact isNumeral_cons (fun _ => rfl) (by simp)
    case isFalse =>
      simp only
      split
      case isTrue => exact isNumeral_cons (by simp_all [zeros]) (by simp)
      case isFalse hlength =>
        rw [List.take_succ_cons]
        exact isNumeral_cons (by simp_all) (by simp_all)
  case isFalse hpositional =>
    refine isNumeral_cons (fun hc => rfl) ?_
    cases cs <;> simp

theorem value_pointed_positionalNumeral (digits : List Char) (leading : Int) :
    (pointed (positionalNumeral digits leading)).decimal.value = valueOf digits leading := by
  unfold positionalNumeral
  split
  case isTrue hneg =>
    have hzeros := natOfDigits_zeros_append digits ((-leading - 1).toNat + 1)
    rw [zeros, List.replicate_succ] at hzeros
    refine value_eq_valueOf (n := 0) ?_ ?_
    · simpa [pointed, Numeral.decimal, zeros] using hzeros
    · simp [pointed, Numeral.decimal, zeros]
      omega
  case isFalse hnonneg =>
    simp only
    split
    case isTrue hlength =>
      have hzeros := natOfDigits_append_zeros digits (leading.toNat + 1 - digits.length + 1)
      rw [zeros, List.replicate_succ'] at hzeros
      refine value_eq_valueOf (n := leading.toNat + 1 - digits.length + 1) ?_ ?_
      · simpa [pointed, Numeral.decimal, zeros] using hzeros
      · simp [pointed, Numeral.decimal]
        omega
    case isFalse hlength =>
      refine value_eq_valueOf (n := 0) ?_ ?_
      · simp [pointed, Numeral.decimal]
      · simp [pointed, Numeral.decimal]
        omega

theorem value_exponentialNumeral (h : digits ≠ []) :
    (json.exponentialNumeral digits leading).decimal.value = valueOf digits leading := by
  obtain ⟨c, cs, rfl⟩ := List.exists_cons_of_ne_nil h
  have hpower : (json.exponentialNumeral (c :: cs) leading).power.elim 0 Numeral.Power.value =
      leading := by
    by_cases hneg : leading < 0
    case pos =>
      simp [exponentialNumeral, Numeral.Power.value, hneg, natOfDigits_toDigits, abs_of_neg hneg]
    case neg =>
      simp [exponentialNumeral, Numeral.Power.value, hneg, natOfDigits_toDigits, json]
      omega
  refine value_eq_valueOf (n := 0) ?_ ?_
  · cases cs <;> simp [exponentialNumeral, Numeral.decimal]
  · rw [Numeral.decimal, hpower]
    cases cs <;> simp [exponentialNumeral]

theorem value_dataNumeral (h : Lead digits leading) :
    (dataNumeral digits leading).decimal.value = valueOf digits leading := by
  unfold dataNumeral
  split
  case isTrue  => exact value_pointed_positionalNumeral digits leading
  case isFalse => exact value_exponentialNumeral h.nonempty

end Layout

end InfixAlgebra
