import InfixAlgebra.Proofs.Decimal.Numeral
import InfixAlgebra.Proofs.Parser.Positions

namespace InfixAlgebra

namespace Numeral

variable {cs rest ds : List Char} {n m : Numeral} {p : Power} {power : Option Power}

theorem wellFormed_of_scanPower (h : scanPower cs = some p) : p.WellFormed := by
  have hending {l s cs} (hl : l = 'e' ∨ l = 'E') (hs : s = none ∨ s = some '+' ∨ s = some '-')
      (h : scanPower.ending l s cs = some p) : p.WellFormed := by
    unfold scanPower.ending at h
    split at h
    case h_1 => cases h
    case h_2 hne =>
      cases h
      exact ⟨hl, hs, fun c hc => List.mem_takeWhile_imp hc, hne⟩
  have hsigned {l cs} (hl : l = 'e' ∨ l = 'E') (h : scanPower.signed l cs = some p) :
      p.WellFormed := by
    unfold scanPower.signed at h
    split at h
    case h_1 => exact hending hl (by simp) h
    case h_2 => exact hending hl (by simp) h
    case h_3 => exact hending hl (by simp) h
  unfold scanPower at h
  split at h
  case h_1 => exact hsigned (.inl rfl) h
  case h_2 => exact hsigned (.inr rfl) h
  case h_3 => cases h

theorem admitted_of_scan (h : scan cs = some n) : n.Admitted := by
  have hdigit {cs : List Char} : ∀ c ∈ cs.takeWhile Char.isDigit, c.isDigit :=
    fun c hc => List.mem_takeWhile_imp hc
  have hpower {cs : List Char} : ∀ p ∈ scanPower cs, p.WellFormed :=
    fun p hp => wellFormed_of_scanPower hp
  unfold scan at h
  split at h
  case h_1 =>
    split at h
    case h_1 => cases h
    case h_2 hne =>
      cases h
      exact ⟨nofun, by simpa using hdigit, by simpa using hne, hpower⟩
  case h_2 => cases h
  case h_3 hne =>
    cases h
    exact ⟨hdigit, by simpa using hdigit, by simp_all, hpower⟩
  case h_4 hne _ =>
    cases h
    exact ⟨hdigit, nofun, by simp_all, hpower⟩

-- A power of ten goes on for as long as there are digits.
theorem scanPower_toList_append (h : p.WellFormed) (rest : List Char) :
    scanPower (p.toList ++ rest) =
      some { p with digits := p.digits ++ rest.takeWhile Char.isDigit } := by
  have hmore :
      ({ p with digits := p.digits ++ rest.takeWhile Char.isDigit } : Power).WellFormed := by
    refine ⟨h.letter, h.sign, fun c hc => ?_, by simp [h.nonempty]⟩
    rcases List.mem_append.mp hc with hc | hc
    case inl => exact h.digits c hc
    case inr => exact List.mem_takeWhile_imp hc
  have hrest := rest.takeWhile_append_dropWhile (p := Char.isDigit)
  rw [← scanPower_toList hmore (.dropWhile Char.isDigit rest)]
  simp only [Power.toList, List.cons_append, List.append_assoc, hrest]

-- What is found in place of digits and perhaps a power of ten is at least as long as they are.
theorem length_le_of_digits (hd : ∀ c ∈ ds, c.isDigit) (hp : ∀ p ∈ power, p.WellFormed)
    (h : cs = ds ++ (power.elim [] Power.toList ++ rest)) :
    ds.length + power.elim 0 Power.length ≤ (cs.takeWhile Char.isDigit).length +
      (scanPower (cs.dropWhile Char.isDigit)).elim 0 Power.length := by
  subst h
  cases power with
  | none =>
    simp only [Option.elim_none, List.nil_append, List.takeWhile_append_of_pos hd,
      List.length_append]
    omega
  | some p =>
    have hhead : HeadNot Char.isDigit (p.toList ++ rest) := by
      rcases (hp p rfl).letter with hl | hl <;> simp [Power.toList, HeadNot.cons_iff, hl]
    simp only [Option.elim_some, HeadNot.takeWhile_append hd hhead,
      HeadNot.dropWhile_append hd hhead, scanPower_toList_append (hp p rfl)]
    simp [Power.length, Power.toList]

namespace Admitted

-- The scanner finds a numeral wherever one begins the text, and none that is shorter.
theorem exists_scan (h : n.Admitted) (rest : List Char) :
    ∃ m, scan (n.toList ++ rest) = some m ∧ n.length ≤ m.length := by
  obtain ⟨whole, fraction, power⟩ := n
  obtain ⟨hw, hf, hne, hp⟩ := h
  dsimp only at hw hf hne hp
  cases fraction with
  | some fs =>
    generalize hcs : fs ++ (power.elim [] Power.toList ++ rest) = cs
    have hle := length_le_of_digits (hf fs rfl) hp hcs.symm
    have hdigits : whole ++ cs.takeWhile Char.isDigit ≠ [] := by
      rw [← hcs, List.takeWhile_append_of_pos (hf fs rfl), ← List.append_assoc]
      exact List.append_ne_nil_of_left_ne_nil hne _
    have htext : toList ⟨whole, some fs, power⟩ ++ rest = whole ++ '.' :: cs := by
      simp [toList, ← hcs]
    rw [htext]
    refine ⟨_, scan_point hw hdigits, ?_⟩
    simp only [length, Option.elim_some]
    omega
  | none =>
    generalize hcs : whole ++ (power.elim [] Power.toList ++ rest) = cs
    have hle := length_le_of_digits hw hp hcs.symm
    have hdigits : cs.takeWhile Char.isDigit ≠ [] := by
      rw [← hcs, List.takeWhile_append_of_pos hw]
      exact List.append_ne_nil_of_left_ne_nil (by simpa using hne) _
    have htext : toList ⟨whole, none, power⟩ ++ rest = cs := by simp [toList, ← hcs]
    rw [htext, scan]
    split
    case h_1 hnil _ => exact absurd hnil hdigits
    case h_2 hnil _ => exact absurd hnil hdigits
    case h_3 hpoint _ =>
      have hnone (ds : List Char) : scanPower ('.' :: ds) = none := by simp [scanPower]
      rw [hpoint, hnone] at hle
      exact ⟨_, rfl, by simp only [length, Option.elim_none, Option.elim_some] at hle ⊢; omega⟩
    case h_4 => exact ⟨_, rfl, by simp only [length, Option.elim_none]; omega⟩

end Admitted

end Numeral

end InfixAlgebra
