import Mathlib
import InfixAlgebra.Json.Reader
import InfixAlgebra.Json.Writer
import InfixAlgebra.Proofs.Decimal.Numeral

namespace InfixAlgebra

namespace Json

inductive IsNumber : List Char → Prop
  | positive {n : Numeral} (h : n.WellFormed) (hn : Read.isNumeral n) : IsNumber n.toList
  | negative {n : Numeral} (h : n.WellFormed) (hn : Read.isNumeral n) : IsNumber ('-' :: n.toList)

-- A number begins like nothing else.
theorem IsNumber.opens {s : List Char} (h : IsNumber s) :
    ∃ c cs, s = c :: cs ∧ Read.isBlank c = false ∧
      c ∉ ['n', 't', 'f', '"', '[', ']', '{', '}'] := by
  cases h with
  | negative => exact ⟨_, _, rfl, by decide, by decide⟩
  | positive h =>
    obtain ⟨c, cs, hcs, hc⟩ := h.exists_cons
    let opens (c : Char) : Bool := !Read.isBlank c && c ∉ ['n', 't', 'f', '"', '[', ']', '{', '}']
    have hopens : opens c := of_isDigit (by decide) hc
    simpa [opens, hcs] using hopens

def spaced {β : Type} (gap : List Char) (text : β → List Char) : List β → List Char
  | []      => []
  | [x]     => gap ++ text x
  | x :: xs => gap ++ text x ++ ',' :: spaced gap text xs

def Blank (gap : List Char) : Prop :=
  ∀ c ∈ gap, Read.isBlank c

def fieldText (gap : List Char) (text : Json → List Char) (f : List Char × Json) : List Char :=
  quoted f.1 ++ ':' :: gap ++ text f.2

-- The texts that spell data, where blanks may stand between the parts of lists and objects.
inductive Spells : Json → List Char → Prop
  | null : Spells null ['n', 'u', 'l', 'l']
  | true : Spells (bool true) ['t', 'r', 'u', 'e']
  | false : Spells (bool false) ['f', 'a', 'l', 's', 'e']
  | number {s : List Char} (h : IsNumber s) : Spells (number s) s
  | string (t : String) : Spells (string (escape t)) (quoted (escape t))
  | emptyArray : Spells (array []) ['[', ']']
  | emptyObject : Spells (object []) ['{', '}']
  | array {items : List Json} {gap gap' : List Char} {text : Json → List Char} (hne : items ≠ [])
      (hgap : Blank gap) (hgap' : Blank gap') (h : ∀ v ∈ items, Spells v (text v)) :
      Spells (array items) ('[' :: spaced gap text items ++ gap' ++ [']'])
  | object {fields : List (List Char × Json)} {gap gap' inner : List Char}
      {text : Json → List Char} (hne : fields ≠ []) (hgap : Blank gap) (hgap' : Blank gap')
      (hinner : Blank inner) (hnames : ∀ f ∈ fields, ∃ t : String, f.1 = escape t)
      (h : ∀ f ∈ fields, Spells f.2 (text f.2)) :
      Spells (object fields) ('{' :: spaced gap (fieldText inner text) fields ++ gap' ++ ['}'])

namespace Read

variable {β : Type} {item : Read β} {text gap gap' cs rest : List Char} {x : β} {c closing : Char}

theorem skipBlanks_append (hgap : Blank gap) (hc : isBlank c = false) :
    skipBlanks (gap ++ c :: cs) = c :: cs :=
  HeadNot.dropWhile_append hgap (HeadNot.cons_iff.mpr hc)

theorem skipBlanks_cons (hc : isBlank c = false) : skipBlanks (c :: cs) = c :: cs :=
  List.dropWhile_cons_of_neg (by simp [hc])

-- A text is read wherever it stands, up to what follows, which is not more of the same number. It
-- begins neither like a gap nor like the end of a list.
structure Reads (item : Read β) (text : List Char) (x : β) : Prop where
  opens : ∃ c cs, text = c :: cs ∧ isBlank c = false ∧ c ≠ ']' ∧ c ≠ '}'
  read  : ∀ gap rest, Blank gap → HeadNot Numeral.continues rest →
    item (gap ++ (text ++ rest)) = some (x, rest)

-- Strings.

theorem stringBody_escapeChar (c : Char) (cs : List Char) :
    stringBody (escapeChar c ++ cs) =
      (stringBody cs).map fun (s, rest) => (escapeChar c ++ s, rest) := by
  have hhex :
      ∀ n < 32, (unit? '0' '0' (Nat.digitChar (n / 16)) (Nat.digitChar (n % 16))).isSome := by
    decide
  unfold escapeChar
  split
  case h_8 =>
    split
    case isTrue h => simp [stringBody, hhex c.toNat h]
    case isFalse h => simp_all [stringBody]
  all_goals simp [stringBody, ofShortEscape?]

theorem stringBody_escape (s : String) (rest : List Char) :
    stringBody (escape s ++ '"' :: rest) = some (escape s, rest) := by
  unfold escape
  induction s.toList with
  | nil => simp [stringBody]
  | cons c cs ih => simp [stringBody_escapeChar, ih]

-- Numbers.

theorem numberBody_toList {n : Numeral} (h : n.WellFormed) (hn : isNumeral n)
    (hrest : HeadNot Numeral.continues rest) :
    numberBody (n.toList ++ rest) = some (n.toList, rest) := by
  have hscan := Numeral.scan_toList_append h hrest
  have hdrop : (n.toList ++ rest).drop n.length = rest := by
    rw [← Numeral.length_toList, List.drop_left]
  simp [numberBody, hscan, hn, hdrop]

theorem numberBodySigned_append {s : List Char} (h : IsNumber s)
    (hrest : HeadNot Numeral.continues rest) : numberBodySigned (s ++ rest) = some (s, rest) := by
  cases h with
  | negative h hn => simp [numberBodySigned, numberBody_toList h hn hrest]
  | positive h hn =>
    have hbody := numberBody_toList h hn hrest
    obtain ⟨c, cs, hcs, hc⟩ := h.exists_cons
    rw [hcs] at hbody ⊢
    have hne : c ≠ '-' := by rintro rfl; cases hc
    unfold numberBodySigned
    grind

-- Lists.

theorem itemsFrom_congr {rounds cs' : List Char} (h : item cs = item cs') :
    itemsFrom closing item rounds cs = itemsFrom closing item rounds cs' := by
  cases rounds with
  | nil => rfl
  | cons => simp only [itemsFrom, h]

theorem headNot_gap (hgap : Blank gap) (hrest : HeadNot Numeral.continues rest) :
    HeadNot Numeral.continues (gap ++ rest) := by
  cases gap with
  | nil => exact hrest
  | cons d gap =>
    have hd := hgap d List.mem_cons_self
    refine HeadNot.cons_iff.mpr ?_
    simp only [isBlank, Bool.or_eq_true, beq_iff_eq] at hd
    rcases hd with ((rfl | rfl) | rfl) | rfl <;> rfl

theorem itemsFrom_spaced {text : β → List Char} {xs : List β} (rounds rest : List Char)
    (hne : xs ≠ [])
    (hlength : xs.length ≤ rounds.length) (hgap : Blank gap) (hgap' : Blank gap')
    (hclosing : closing = ']' ∨ closing = '}') (h : ∀ x ∈ xs, Reads item (text x) x) :
    itemsFrom closing item rounds (spaced gap text xs ++ gap' ++ closing :: rest) =
      some (xs, rest) := by
  have hblank : isBlank closing = false := by rcases hclosing with rfl | rfl <;> rfl
  have hends : Numeral.continues closing = false := by rcases hclosing with rfl | rfl <;> rfl
  have hcomma : ',' ≠ closing := by rcases hclosing with rfl | rfl <;> decide
  induction xs generalizing rounds with
  | nil => exact absurd rfl hne
  | cons x xs ih =>
    have ⟨hx, hxs⟩ := List.forall_mem_cons.mp h
    cases rounds with
    | nil => simp at hlength
    | cons r rounds =>
      cases xs with
      | nil =>
        have hhead : HeadNot Numeral.continues (closing :: rest) := HeadNot.cons_iff.mpr hends
        have hread := hx.read gap (gap' ++ closing :: rest) hgap (headNot_gap hgap' hhead)
        simp [itemsFrom, spaced, hread, skipBlanks_append hgap' hblank]
      | cons y ys =>
        have htail := ih rounds (by simp) (Nat.le_of_succ_le_succ hlength) hxs
        have hread (cs : List Char) : item (gap ++ (text x ++ ',' :: cs)) = some (x, ',' :: cs) :=
          hx.read gap (',' :: cs) hgap (HeadNot.cons_iff.mpr rfl)
        simp only [List.append_assoc] at htail
        simp [itemsFrom, spaced, hread, htail, skipBlanks, isBlank, hcomma]

theorem length_le_spaced {text : β → List Char} {xs : List β} (hx : x ∈ xs) :
    (text x).length ≤ (spaced gap text xs).length := by
  induction xs with
  | nil => cases hx
  | cons y ys ih => cases ys <;> grind [spaced]

theorem length_le_length_spaced {text : β → List Char} {xs : List β} (gap : List Char)
    (h : ∀ x ∈ xs, text x ≠ []) : xs.length ≤ (spaced gap text xs).length := by
  induction xs with
  | nil => simp
  | cons y ys ih =>
    have ⟨hy, hys⟩ := List.forall_mem_cons.mp h
    have := List.length_pos_of_ne_nil hy
    cases ys <;> grind [spaced]

theorem Reads.congr (h : Reads item text x) (hgap : Blank gap)
    (hrest : HeadNot Numeral.continues rest) :
    item (gap ++ (text ++ rest)) = item (text ++ rest) :=
  (h.read gap rest hgap hrest).trans (h.read [] rest nofun hrest).symm

theorem exists_spaced_cons {text : β → List Char} (x : β) (xs : List β) (hgap' : Blank gap')
    (hends : Numeral.continues closing = false) :
    ∃ more, spaced gap text (x :: xs) ++ gap' ++ closing :: rest = gap ++ (text x ++ more) ∧
      HeadNot Numeral.continues more := by
  cases xs with
  | nil =>
    have hmore : HeadNot Numeral.continues (gap' ++ closing :: rest) :=
      headNot_gap hgap' (HeadNot.cons_iff.mpr hends)
    exact ⟨gap' ++ closing :: rest, by simp [spaced], hmore⟩
  | cons => exact ⟨',' :: _, by simp [spaced]; rfl, HeadNot.cons_iff.mpr rfl⟩

theorem items_spaced {text : β → List Char} {xs : List β} (hne : xs ≠ []) (hgap : Blank gap)
    (hgap' : Blank gap') (hclosing : closing = ']' ∨ closing = '}')
    (h : ∀ x ∈ xs, Reads item (text x) x) :
    items closing item (spaced gap text xs ++ gap' ++ closing :: rest) = some (xs, rest) := by
  have hends : Numeral.continues closing = false := by rcases hclosing with rfl | rfl <;> rfl
  have hlength : xs.length ≤ (spaced gap text xs ++ gap' ++ closing :: rest).length := by
    have hnil (x : β) (hx : x ∈ xs) : text x ≠ [] := by
      obtain ⟨c, cs, hcs, -⟩ := (h x hx).opens
      simp [hcs]
    have := length_le_length_spaced gap hnil
    grind
  have hfrom := itemsFrom_spaced _ rest hne hlength hgap hgap' hclosing h
  obtain ⟨x, xs, rfl⟩ := List.exists_cons_of_ne_nil hne
  have hx := h x List.mem_cons_self
  obtain ⟨c, cs, hcs, hblank, hne⟩ := hx.opens
  obtain ⟨more, heq, hmore⟩ : ∃ more,
      spaced gap text (x :: xs) ++ gap' ++ closing :: rest = gap ++ (text x ++ more) ∧
        HeadNot Numeral.continues more := exists_spaced_cons x xs hgap' hends
  have hcongr := hx.congr hgap hmore
  rw [heq] at hfrom ⊢
  have hskip : skipBlanks (gap ++ (text x ++ more)) = c :: (cs ++ more) := by
    rw [hcs]
    exact skipBlanks_append hgap hblank
  have hc : c ≠ closing := by rcases hclosing with rfl | rfl <;> simp [hne]
  have hitem : item (c :: (cs ++ more)) = item (gap ++ (text x ++ more)) := by
    rw [hcongr, hcs, List.cons_append]
  rw [items, hskip, ← hfrom]
  simp only [beq_iff_eq, hc, if_false]
  exact itemsFrom_congr hitem

-- Data.

theorem reads_field {value : Read Json} {inner : List Char} {v : Json} (hinner : Blank inner)
    (t : String) (h : Reads value text v) :
    Reads (field value) (quoted (escape t) ++ ':' :: inner ++ text) (escape t, v) := by
  refine ⟨⟨'"', _, rfl, rfl, by decide, by decide⟩, fun gap rest hgap hrest => ?_⟩
  have hkey := stringBody_escape t (':' :: (inner ++ (text ++ rest)))
  have hread := h.read inner rest hinner hrest
  have hquote : isBlank '"' = false := rfl
  have hcolon : skipBlanks (':' :: (inner ++ (text ++ rest))) = ':' :: (inner ++ (text ++ rest)) :=
    skipBlanks_cons rfl
  simp [field, quoted, skipBlanks_append hgap hquote, hkey, hcolon, hread]

theorem value_gap {n : Nat} (hgap : Blank gap) (hc : isBlank c = false) :
    value n (gap ++ c :: cs) = value n (c :: cs) := by
  cases n with
  | zero => rfl
  | succ n => simp only [value, skipBlanks_append hgap hc, skipBlanks_cons hc]

theorem value_number {n : Nat} {s : List Char} (h : IsNumber s)
    (hrest : HeadNot Numeral.continues rest) :
    value (n + 1) (s ++ rest) = some (number s, rest) := by
  have hsigned := numberBodySigned_append h hrest
  obtain ⟨c, cs, rfl, hblank, hc⟩ := h.opens
  have hskip : skipBlanks (c :: cs ++ rest) = c :: cs ++ rest := skipBlanks_cons hblank
  rw [value, hskip]
  split
  case h_7 => rw [hsigned]; rfl
  all_goals simp_all

-- Nothing but numbers depends on what follows.
theorem Reads.value {n : Nat} {v : Json} (hc : isBlank c = false) (hne : c ≠ ']' ∧ c ≠ '}')
    (h : ∀ rest, HeadNot Numeral.continues rest → value n (c :: cs ++ rest) = some (v, rest)) :
    Reads (value n) (c :: cs) v :=
  ⟨⟨c, cs, rfl, hc, hne⟩, fun _ rest hgap hrest => (value_gap hgap hc).trans (h rest hrest)⟩

-- Data is read from each text that spells it.
theorem reads_value {n : Nat} {v : Json} (h : Spells v text) (hn : text.length < n) :
    Reads (value n) text v := by
  induction h generalizing n
  all_goals obtain _ | n := n; case zero => cases hn
  case null.succ => exact .value rfl (by decide) fun rest _ => rfl
  case true.succ => exact .value rfl (by decide) fun rest _ => rfl
  case false.succ => exact .value rfl (by decide) fun rest _ => rfl
  case emptyArray.succ => exact .value rfl (by decide) fun rest _ => rfl
  case emptyObject.succ => exact .value rfl (by decide) fun rest _ => rfl
  case number.succ h =>
    obtain ⟨c, cs, rfl, hblank, hc⟩ := h.opens
    exact .value hblank (by simp_all) fun rest hrest => value_number h hrest
  case string.succ t =>
    refine .value rfl (by decide) fun rest _ => ?_
    have hbody := stringBody_escape t rest
    simp [Read.value, skipBlanks, isBlank, hbody]
  case array.succ vs gap gap' text hne hgap hgap' h ih =>
    refine .value rfl (by decide) fun rest _ => ?_
    have hitems (v : Json) (hv : v ∈ vs) : Reads (Read.value n) (text v) v := by
      have hlength : (text v).length ≤ (spaced gap text vs).length := length_le_spaced hv
      refine ih v hv ?_
      simp at hn
      omega
    have hread : items ']' (Read.value n) (spaced gap text vs ++ gap' ++ ']' :: rest) =
        some (vs, rest) := items_spaced hne hgap hgap' (.inl rfl) hitems
    simp [Read.value, skipBlanks, isBlank, ← hread]
  case object.succ fields gap gap' inner text hne hgap hgap' hinner hnames h ih =>
    refine .value rfl (by decide) fun rest _ => ?_
    have hfields (f : List Char × Json) (hf : f ∈ fields) :
        Reads (field (Read.value n)) (fieldText inner text f) f := by
      have hlength : (fieldText inner text f).length ≤
          (spaced gap (fieldText inner text) fields).length := length_le_spaced hf
      have hv : Reads (Read.value n) (text f.2) f.2 := by
        refine ih f hf ?_
        simp [fieldText] at hn hlength
        omega
      obtain ⟨t, ht⟩ := hnames f hf
      rw [fieldText, ht, ← Prod.eta f, ht]
      exact reads_field hinner t hv
    have hread : items '}' (field (Read.value n))
        (spaced gap (fieldText inner text) fields ++ gap' ++ '}' :: rest) = some (fields, rest) :=
      items_spaced hne hgap hgap' (.inr rfl) hfields
    simp [Read.value, skipBlanks, isBlank, ← hread]

end Read

end Json

end InfixAlgebra
