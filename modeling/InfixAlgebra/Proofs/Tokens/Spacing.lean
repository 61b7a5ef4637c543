import InfixAlgebra.Proofs.Parser.Positions
import InfixAlgebra.Proofs.Printer.Spelling
import InfixAlgebra.Proofs.Tokens.Longest

namespace InfixAlgebra

open String (utf8Len)
open Lexeme (isBlank scanFrom Scans)

variable {α : Type} [NumberText α] {text : String} {p i : Nat} {c : Char} {t : Token α}
  {g cs pre post w rest : List Char} {s : Spanned α} {ss ts : List (Spanned α)}

-- From byte `p` of a text on, blanks and tokens take turns. Between two tokens there need not be
-- anything blank.
inductive Tiled : Nat → List Char → List (Spanned α) → Prop
  | blank {p : Nat} {g : List Char} : (∀ c ∈ g, isBlank c) → Tiled p g []
  | token {p : Nat} {g w rest : List Char} {t : Token α} {ss : List (Spanned α)} :
      (∀ c ∈ g, isBlank c) → Token.Longest (w ++ rest) w t →
      Tiled (p + utf8Len g + utf8Len w) rest ss →
      Tiled p (g ++ (w ++ rest)) (⟨t, p + utf8Len g, p + utf8Len g + utf8Len w⟩ :: ss)

-- A character of a text that has two parts is in one of them.
theorem append_eq_append_cons {xs ys : List Char} (h : xs ++ ys = pre ++ c :: post) :
    (∃ ds, pre = xs ++ ds ∧ ys = ds ++ c :: post) ∨ ∃ ds, xs = pre ++ c :: ds := by
  rcases List.append_eq_append_iff.mp h with ⟨ds, hds⟩ | ⟨ds, hx, hds⟩
  case inl => exact .inl ⟨ds, hds⟩
  case inr =>
    cases ds with
    | nil       => exact .inl ⟨[], by simpa using hx.symm, hds.symm⟩
    | cons d ds =>
      cases hds
      exact .inr ⟨ds, hx⟩

namespace Tiled

theorem cons_blank (hc : isBlank c) (h : Tiled (p + c.utf8Size) cs ss) : Tiled p (c :: cs) ss := by
  have hcons {g} (hg : ∀ d ∈ g, isBlank d) : ∀ d ∈ c :: g, isBlank d :=
    List.forall_mem_cons.mpr ⟨hc, hg⟩
  cases h with
  | blank hg => exact .blank (hcons hg)
  | @token _ g w rest t ss hg hw hrest =>
    have hsum : p + c.utf8Size + utf8Len g = p + utf8Len (c :: g) := by
      rw [String.utf8Len_cons]
      omega
    rw [hsum] at hrest ⊢
    exact .token (hcons hg) hw hrest

-- What the scanner finds in a text without stray characters.
theorem of_scanFrom {pending : Nat} (h : scanFrom p pending cs = ss.map .token)
    (hp : pending ≤ cs.length) : Tiled (p + utf8Len (cs.take pending)) (cs.drop pending) ss := by
  fun_induction scanFrom (α := α) p pending cs generalizing ss
  case case1 =>
    obtain rfl := List.map_eq_nil_iff.mp h.symm
    simpa using .blank (List.forall_mem_nil _)
  case case2 p n c cs ih =>
    have hrest := ih h (Nat.le_of_succ_le_succ hp)
    have hsum : p + c.utf8Size + utf8Len (cs.take n) = p + utf8Len ((c :: cs).take (n + 1)) := by
      rw [List.take_succ_cons, String.utf8Len_cons]
      omega
    rwa [hsum] at hrest
  case case3 p c cs next hb ih => exact cons_blank hb (ih h (Nat.zero_le _))
  case case4 p c cs next hb t n hs ih =>
    obtain ⟨hpos, hle⟩ := Token.length_of_scan hs
    obtain ⟨s, ss, rfl, hstart, hss⟩ := List.map_eq_cons_iff.mp h.symm
    cases hstart
    obtain ⟨k, rfl⟩ := Nat.exists_eq_add_one.mpr hpos
    have hw := Token.longest_of_scan hs
    have hsize : utf8Len ((c :: cs).take (k + 1)) = k + 1 := by
      rw [Plain.utf8Len_eq fun d => hw.spells.shape.plain, List.length_take_of_le hle]
    have hrest : Tiled (p + utf8Len ((c :: cs).take (k + 1))) ((c :: cs).drop (k + 1)) ss := by
      have hrest := ih hss.symm (Nat.le_of_succ_le_succ hle)
      simpa [next, Nat.add_assoc, Nat.add_comm c.utf8Size] using hrest
    have hcs := List.take_append_drop (k + 1) (c :: cs)
    generalize (c :: cs).take (k + 1) = w at hw hsize hrest hcs
    generalize (c :: cs).drop (k + 1) = rest at hrest hcs
    rw [← hcs] at hw ⊢
    have htiled : Tiled p ([] ++ (w ++ rest)) (⟨t, p, p + utf8Len w⟩ :: ss) :=
      .token (List.forall_mem_nil _) hw hrest
    rwa [hsize] at htiled
  case case5 =>
    obtain ⟨_, _, _, hstart, _⟩ := List.map_eq_cons_iff.mp h.symm
    cases hstart

theorem blank_of_nil (h : Tiled (α := α) p cs []) : ∀ c ∈ cs, isBlank c := by
  cases h with
  | blank hg => exact hg

theorem exists_lead (h : Tiled p cs (s :: ss)) :
    ∃ g ds, cs = g ++ ds ∧ (∀ c ∈ g, isBlank c) ∧ s.start = p + utf8Len g := by
  cases h with
  | token hg => exact ⟨_, _, rfl, hg, rfl⟩

-- What is in none of the tokens is blank.
theorem isBlank_of_uncovered (h : Tiled p cs ss) (hcs : cs = pre ++ c :: post)
    (hi : p + utf8Len pre ≤ i) (hi' : i < p + utf8Len pre + c.utf8Size)
    (hss : ∀ s ∈ ss, ¬(s.start ≤ i ∧ i < s.stop)) : isBlank c := by
  induction h generalizing pre with
  | blank hg => exact hg c (by simp [hcs])
  | @token p g w rest t ss hg hw hrest ih =>
    have ⟨hcover, hlater⟩ := List.forall_mem_cons.mp hss
    rcases append_eq_append_cons hcs with ⟨ds, rfl, hds⟩ | ⟨ds, rfl⟩
    case inr => exact hg c (by simp)
    case inl =>
      simp only [String.utf8Len_append] at hi hi'
      rcases append_eq_append_cons hds with ⟨es, rfl, hes⟩ | ⟨es, rfl⟩
      case inl =>
        simp only [String.utf8Len_append] at hi hi'
        exact ih hes (by omega) (by omega) hlater
      case inr =>
        simp only [String.utf8Len_append, String.utf8Len_cons] at hcover
        omega

theorem exists_of_mem (h : Tiled p cs ss) (hs : s ∈ ss) :
    ∃ pre w post, cs = pre ++ (w ++ post) ∧ s.start = p + utf8Len pre ∧
      s.stop = s.start + utf8Len w ∧ Token.Longest (w ++ post) w s.token := by
  induction h with
  | blank => cases hs
  | @token p g w rest t ss hg hw hrest ih =>
    rcases List.mem_cons.mp hs with rfl | hs
    case inl => exact ⟨g, w, rest, rfl, rfl, rfl, hw⟩
    case inr =>
      obtain ⟨pre, v, post, rfl, hstart, hstop, hv⟩ := ih hs
      refine ⟨g ++ (w ++ pre), v, post, by simp, ?_, hstop, hv⟩
      simp only [hstart, String.utf8Len_append]
      omega

end Tiled

namespace Lexing

def part (text : String) (start stop : Nat) : String :=
  String.Pos.Raw.extract text ⟨start⟩ ⟨stop⟩

-- A text with `gap s` in place of what it has between the token `s` and the next one.
def respaced (text : String) (gap : Spanned α → String) : List (Spanned α) → String
  | []      => text
  | s :: ss => part text 0 s.start ++ continued s ss
where
  continued (s : Spanned α) : List (Spanned α) → String
    | []      => part text s.start text.utf8ByteSize
    | t :: ss => part text s.start s.stop ++ gap s ++ continued t ss

structure Gap (g : String) : Prop where
  nonempty : g ≠ ""
  blank    : ∀ c ∈ g.toList, isBlank c

theorem Gap.exists_cons {g : String} (h : Gap g) : ∃ c cs, g.toList = c :: cs ∧ isBlank c := by
  have ⟨hne, hblank⟩ := h
  cases hg : g.toList with
  | nil       => exact absurd (by simpa using hg) hne
  | cons c cs => exact ⟨c, cs, rfl, hblank c (by simp [hg])⟩

theorem part_eq {l m r : List Char} (h : text.toList = l ++ (m ++ r)) :
    (part text (utf8Len l) (utf8Len l + utf8Len m)).toList = m := by
  have htext : text = String.ofList (l ++ m ++ r) := by
    rw [List.append_assoc, ← h, String.ofList_toList]
  rw [part, htext, String.extract_of_valid, String.toList_ofList]

theorem part_eq_rest {l m : List Char} (h : text.toList = l ++ m) :
    (part text (utf8Len l) text.utf8ByteSize).toList = m := by
  have hsize : text.utf8ByteSize = utf8Len l + utf8Len m := by
    rw [← String.utf8Len_toList, h, String.utf8Len_append]
  rw [hsize]
  exact part_eq (r := []) (by rw [h, List.append_nil])

end Lexing

namespace Tiled

open Lexing

theorem scans_blank {us : List (Token α)} (hg : ∀ c ∈ g, isBlank c) (h : Scans cs us rest) :
    Scans (g ++ cs) us rest := by
  induction g with
  | nil => exact h
  | cons c g ih =>
    have ⟨hc, hg⟩ := List.forall_mem_cons.mp hg
    exact .blank hc (ih hg)

theorem scans_blank_only (hg : ∀ c ∈ g, isBlank c) : Scans (α := α) g [] [] := by
  have hscans : Scans (α := α) (g ++ []) [] [] := scans_blank hg .nil
  rwa [List.append_nil] at hscans

theorem scans_token {us : List (Token α)} (h : Token.Longest (w ++ cs) w t) (hcs : Scans cs us []) :
    Scans (w ++ cs) (t :: us) [] := by
  have hscan := h.scan
  have hpos := (Token.length_of_scan hscan).1
  have hw : Scans w [t] (cs ++ []) := by
    rw [List.append_nil]
    cases w with
    | nil       => cases hpos
    | cons c cs => exact .single (h.spells.shape.plain (c := c) (by simp)).notBlank hscan
  exact hw.append hcs

-- With other gaps the rest of a text is still read as the same tokens.
theorem scans_continued {gap : Spanned α → String} (hgap : ∀ s, Gap (gap s))
    (h : Tiled (utf8Len pre) cs (s :: ss)) (htext : text.toList = pre ++ cs) :
    Scans (respaced.continued text gap s ss).toList ((s :: ss).map (·.token)) [] := by
  induction ss generalizing pre cs s with
  | nil =>
    cases h with
    | @token _ g w rest t _ hg hw hrest =>
      have hpart := @part_eq_rest text (pre ++ g) (w ++ rest) (by simp [htext])
      rw [String.utf8Len_append] at hpart
      rw [respaced.continued, hpart]
      exact scans_token hw (scans_blank_only hrest.blank_of_nil)
  | cons u ss ih =>
    cases h with
    | @token _ g w rest t _ hg hw hrest =>
      have hpart := @part_eq text (pre ++ g) w rest (by simp [htext])
      have hlater := @ih rest (pre ++ (g ++ w)) u (by simpa [Nat.add_assoc] using hrest)
        (by simp [htext])
      rw [String.utf8Len_append] at hpart
      rw [respaced.continued, String.toList_append, String.toList_append, hpart, List.append_assoc]
      have hs := hgap ⟨t, utf8Len pre + utf8Len g, utf8Len pre + utf8Len g + utf8Len w⟩
      have ⟨c, cs, hc, hblank⟩ := hs.exists_cons
      refine scans_token ?_ (scans_blank hs.blank hlater)
      rw [hc]
      exact hw.respaced hblank

theorem scans_respaced {gap : Spanned α → String} (hgap : ∀ s, Gap (gap s))
    (h : Tiled 0 text.toList ss) : Scans (respaced text gap ss).toList (ss.map (·.token)) [] := by
  cases ss with
  | nil      => exact scans_blank_only h.blank_of_nil
  | cons s ss =>
    have ⟨g, ds, hg, hblank, hstart⟩ := h.exists_lead
    have hlead := @part_eq text [] g ds (by simpa using hg)
    rw [String.utf8Len_nil, ← hstart] at hlead
    rw [respaced, String.toList_append, hlead]
    have hcs : Tiled (utf8Len []) text.toList (s :: ss) := h
    exact scans_blank hblank (scans_continued hgap hcs rfl)

end Tiled

namespace Lexing

theorem scan_eq_of_tokens? (h : (ofText (α := α) text).tokens? = .ok ts) :
    Lexeme.scan text = ts.map .token := by
  have ⟨k, hk, hts⟩ := finished_of_tokens? h
  subst hts
  unfold ofText at hk ⊢
  generalize Lexeme.scan (α := α) text = ls at hk
  induction ls with
  | nil => rfl
  | cons l ls ih =>
    cases l with
    | stray   => cases hk
    | token s => exact congrArg (Lexeme.token s :: ·) (ih hk)

-- Tokens that lie where they belong in a text, each of them the longest one that begins there, with
-- nothing between them that is not blank. Here `i` is any byte of the character `c`.
structure Tiling (text : String) (ts : List (Spanned α)) : Prop where
  increasing : ts.Pairwise (·.stop ≤ ·.start)
  nonempty   : ∀ s ∈ ts, s.start < s.stop
  inside     : ∀ s ∈ ts, s.stop ≤ text.utf8ByteSize
  blank      : ∀ {pre c post i}, text.toList = pre ++ c :: post → utf8Len pre ≤ i →
    i < utf8Len pre + c.utf8Size → (∀ s ∈ ts, ¬(s.start ≤ i ∧ i < s.stop)) → isBlank c
  longest    : ∀ s ∈ ts, ∃ pre w post, text.toList = pre ++ (w ++ post) ∧ s.start = utf8Len pre ∧
    s.stop = s.start + utf8Len w ∧ Token.Longest (w ++ post) w s.token

-- Tokens tile the text that they are found in, and the gaps between them do not matter if they are
-- not empty.
theorem tokens_tile (h : (ofText (α := α) text).tokens? = .ok ts) :
    Tiling text ts ∧ ∀ gap : Spanned α → String, (∀ s, Gap (gap s)) →
      ∃ us, (ofText (respaced text gap ts)).tokens? = .ok us ∧
        us.map (·.token) = ts.map (·.token) := by
  have htiled : Tiled 0 text.toList ts := by
    simpa using Tiled.of_scanFrom (scan_eq_of_tokens? h) (Nat.zero_le _)
  have ⟨k, hk, hts⟩ := finished_of_tokens? h
  have ⟨hpairwise, hnonempty, hbounded⟩ := ordered_ofText (α := α) text
  rw [hts] at hpairwise hnonempty hbounded
  rw [hk, eq_of_ofLexemes_finished hk] at hbounded
  refine ⟨⟨hpairwise, hnonempty, hbounded, ?_, ?_⟩, fun gap hgap => ?_⟩
  case refine_1 =>
    intro pre c post i hcs hi hi' hs
    exact htiled.isBlank_of_uncovered hcs (by simpa using hi) (by simpa using hi') hs
  case refine_2 =>
    intro s hs
    simpa using htiled.exists_of_mem hs
  case refine_3 => exact tokens?_of_scans (htiled.scans_respaced hgap)

-- One point ends a numeral and the other begins the next, which the `e` behind it is no part of for
-- want of a digit.
theorem tokens_tile_of_two_points :
    let ts : List (Spanned Float) := [⟨.number (NumberText.ofDecimal ⟨1, 0⟩), 0, 2⟩,
      ⟨.number (NumberText.ofDecimal ⟨5, -1⟩), 2, 4⟩, ⟨.constant .e, 4, 5⟩, ⟨.name "x", 6, 7⟩]
    Tiling "1..5e x" ts ∧
      ∃ us, (ofText (respaced "1..5e x" (fun _ => "\t\n") ts)).tokens? = .ok us ∧
        us.map (·.token) = ts.map (·.token) := by
  intro ts
  have h : (ofText (α := Float) "1..5e x").tokens? = .ok ts := rfl
  exact ⟨(tokens_tile h).1, (tokens_tile h).2 _ fun _ => ⟨by decide, List.all_eq_true.mp rfl⟩⟩

end Lexing

end InfixAlgebra
