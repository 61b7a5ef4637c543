import InfixAlgebra.Proofs.Json.Reading

namespace InfixAlgebra

namespace Json

variable {v : Json} {text gap : List Char}

inductive WellSpelled : Json → Prop
  | null : WellSpelled null
  | bool (b : Bool) : WellSpelled (bool b)
  | number {s : List Char} (h : IsNumber s) : WellSpelled (number s)
  | string (t : String) : WellSpelled (string (escape t))
  | array {items : List Json} (h : ∀ v ∈ items, WellSpelled v) : WellSpelled (array items)
  | object {fields : List (List Char × Json)} (hnames : ∀ f ∈ fields, ∃ t : String, f.1 = escape t)
      (h : ∀ f ∈ fields, WellSpelled f.2) : WellSpelled (object fields)

theorem compactItems_eq (items : List Json) : compactItems items = spaced [] compactList items := by
  induction items with
  | nil => rfl
  | cons v vs ih => cases vs <;> simp_all [compactItems, spaced]

theorem compactFields_eq (fields : List (List Char × Json)) :
    compactFields fields = spaced [] (fieldText [] compactList) fields := by
  induction fields with
  | nil => rfl
  | cons f fs ih => cases fs <;> simp_all [compactFields, spaced, fieldText]

theorem prettyItems_eq (indent : Nat) (items : List Json) :
    prettyItems indent items = spaced (lineBreak indent) (prettyList indent) items := by
  induction items with
  | nil => rfl
  | cons v vs ih => cases vs <;> simp_all [prettyItems, spaced]

theorem prettyFields_eq (indent : Nat) (fields : List (List Char × Json)) :
    prettyFields indent fields =
      spaced (lineBreak indent) (fieldText [' '] (prettyList indent)) fields := by
  induction fields with
  | nil => rfl
  | cons f fs ih => cases fs <;> simp_all [prettyFields, spaced, fieldText]

theorem blank_lineBreak (indent : Nat) : Blank (lineBreak indent) := by
  intro c hc
  simp [lineBreak] at hc
  rcases hc with rfl | ⟨_, rfl⟩ <;> rfl

theorem WellSpelled.spells_compactList (h : v.WellSpelled) : Spells v v.compactList := by
  induction h with
  | null => exact .null
  | bool b => cases b <;> first | exact .true | exact .false
  | number h => exact .number h
  | string t => exact .string t
  | @array items h ih =>
    cases items with
    | nil => exact .emptyArray
    | cons v vs =>
      rw [compactList, compactItems_eq, ← List.append_nil (spaced _ _ _)]
      exact .array (by simp) nofun nofun ih
  | @object fields hnames h ih =>
    cases fields with
    | nil => exact .emptyObject
    | cons f fs =>
      rw [compactList, compactFields_eq, ← List.append_nil (spaced _ _ _)]
      exact .object (by simp) nofun nofun nofun hnames ih

theorem WellSpelled.spells_prettyList (h : v.WellSpelled) (indent : Nat) :
    Spells v (v.prettyList indent) := by
  induction h generalizing indent with
  | null => exact .null
  | bool b => cases b <;> first | exact .true | exact .false
  | number h => exact .number h
  | string t => exact .string t
  | @array items h ih =>
    cases items with
    | nil => exact .emptyArray
    | cons v vs =>
      rw [prettyList, prettyItems_eq]
      exact .array (by simp) (blank_lineBreak _) (blank_lineBreak _) fun v hv => ih v hv _
  | @object fields hnames h ih =>
    cases fields with
    | nil => exact .emptyObject
    | cons f fs =>
      rw [prettyList, prettyFields_eq]
      exact .object (by simp) (blank_lineBreak _) (blank_lineBreak _)
        (List.forall_mem_singleton.mpr rfl) hnames fun f hf => ih f hf _

-- Blanks behind data do not matter.
theorem Spells.ofList?_append (h : Spells v text) (hgap : Blank gap) :
    Json.ofList? (text ++ gap) = some v := by
  have hhead : HeadNot Numeral.continues gap := by
    simpa using Read.headNot_gap hgap (HeadNot.nil (p := Numeral.continues))
  have hlength : text.length < (text ++ gap).length + 1 := by
    rw [List.length_append]
    omega
  have hread : Read.value ((text ++ gap).length + 1) (text ++ gap) = some (v, gap) :=
    (Read.reads_value h hlength).read [] gap nofun hhead
  have hskip : Read.skipBlanks gap = [] := List.dropWhile_eq_nil_iff.mpr hgap
  rw [Json.ofList?, hread]
  simp [hskip]

theorem Spells.ofList? (h : Spells v text) : ofList? text = some v := by
  have hnone : Blank [] := nofun
  simpa using h.ofList?_append hnone

-- Data is read back from the text that it is written as, on one line or on many.

theorem parse?_compact (h : v.WellSpelled) : parse? v.compact = some v := by
  rw [parse?, compact, String.toList_ofList, h.spells_compactList.ofList?]

theorem parse?_pretty (h : v.WellSpelled) : parse? v.pretty = some v := by
  rw [parse?, pretty, String.toList_ofList, (h.spells_prettyList 0).ofList?]

theorem parse?_pretty_line (h : v.WellSpelled) : parse? (v.pretty ++ "\n") = some v := by
  have hblank : Blank ['\n'] := by
    simp [Blank, Read.isBlank]
  rw [parse?, pretty, String.toList_append, String.toList_ofList]
  exact (h.spells_prettyList 0).ofList?_append hblank

-- Strings stand for the text that they are spelled from.

theorem unescape?_unit {a b c d : Char} {u : Nat} (rest : List Char)
    (hunit : unit? a b c d = some u) (hu : u < 32) :
    unescape? ('\\' :: 'u' :: a :: b :: c :: d :: rest) =
      (unescape? rest).map (Char.ofNat u :: ·) := by
  have hhigh : isHighSurrogate u = false := by simp [isHighSurrogate]; omega
  have hlow : isLowSurrogate u = false := by simp [isLowSurrogate]; omega
  rw [unescape?.eq_def, Option.map_eq_bind]
  split
  case h_4 | h_5 => grind
  all_goals simp_all

theorem unescape?_escapeChar (c : Char) (cs : List Char) :
    unescape? (escapeChar c ++ cs) = (unescape? cs).map (c :: ·) := by
  have hunit : ∀ n < 32,
      unit? '0' '0' (Nat.digitChar (n / 16)) (Nat.digitChar (n % 16)) = some n := by
    decide
  unfold escapeChar
  split
  case h_8 =>
    split
    case isTrue h => simp [unescape?_unit cs (hunit c.toNat h) h]
    case isFalse h =>
      rw [List.singleton_append, unescape?.eq_def, Option.map_eq_bind]
      split <;> simp_all
  all_goals simp [unescape?, ofShortEscape?, Option.map_eq_bind]

theorem unescape?_escape (s : String) : unescape? (escape s) = some s.toList := by
  unfold escape
  induction s.toList with
  | nil          => rfl
  | cons c cs ih => simp [unescape?_escapeChar, ih]

theorem string?_ofText (s : String) : (ofText s).string? = some s := by
  rw [ofText, string?, unescape?_escape, Option.map_some, String.ofList_toList]

end Json

end InfixAlgebra
