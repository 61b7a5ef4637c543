import InfixAlgebra.Proofs.Printer.Lines

namespace InfixAlgebra

variable {α : Type} [Scalar α] [NumberText α] {r r' : List Char}

namespace Expr

variable {t u a b : Expr α} {n m : Bool} {args args' : List (Expr α)}

-- The text of an expression is a line of its primaries. Whatever holds of the simple ones, and of
-- those that enclose what it holds of, holds of all of them.
theorem Tidy.spells {P : Primary α → Prop} (hlit : DistinctLiterals α)
    (hword : ∀ p : Primary α, p.Proper → p.enclosure = [] → P p)
    (hcall : ∀ f args, (∀ a ∈ args, a.Tidy ∧ Spells P a.outline.outlineTokens a.render.toList) →
      P (.call f args))
    (hparens : ∀ a, a.Tidy → Spells P a.outline.outlineTokens a.render.toList → P (.parens a))
    (ht : t.Tidy) : Spells P t.outline.outlineTokens t.render.toList := by
  induction ht with
  | number x =>
    have ⟨n, hn, htext⟩ := hlit.numeral x
    have hp : P (.numeral (magnitude x)) := by
      refine hword _ ?_ rfl
      have hmagnitude : magnitude x = n.toList := by
        rw [magnitude, htext]
        split <;> rfl
      exact hmagnitude ▸ .numeral hn
    have hlast := Spells.last hp
    rw [Primary.text, Primary.word, Primary.enclosure, List.append_nil, magnitude] at hlast
    rw [render, outline, magnitude]
    split
    case isTrue hlt =>
      rw [if_pos hlt] at hlast htext
      rw [htext] at hlast ⊢
      exact .minus hlast
    case isFalse hlt =>
      rw [if_neg hlt] at hlast
      exact hlast
  | constant c =>
    have hlast := Spells.last (hword _ (.constant c) rfl)
    rwa [Primary.text, Primary.enclosure, List.append_nil] at hlast
  | var hname he =>
    have hlast := Spells.last (hword _ (.var hname he) rfl)
    rwa [Primary.text, Primary.enclosure, List.append_nil] at hlast
  | @neg a _ ha ih =>
    have htext : (Expr.neg a).render.toList =
        '-' :: (parenthesized (a.precedence < 3) a.render).toList := by
      simp [render]
    rw [htext]
    exact .minus (ih.parenthesized (hparens a ha ih))
  | @binary op a b _ ha hb iha ihb =>
    have htext : (Expr.binary op a b).render.toList =
        (parenthesized (leftNeedsParens op a) a.render).toList ++ ' ' :: op.symbol :: ' ' ::
          (parenthesized (rightNeedsParens op b) b.render).toList := by
      simp [render]
    rw [htext]
    exact (iha.parenthesized (hparens a ha iha)).append (ihb.parenthesized (hparens b hb ihb))
  | @call f args hargs ih =>
    have hlast := Spells.last (hcall f args fun a ha => ⟨hargs a ha, ih a ha⟩)
    have htext : (Expr.call f args).render.toList = (Primary.call f args).text := by
      simp [render, Primary.text, Primary.word, Primary.enclosure]
    rwa [htext]

theorem Tidy.spells_proper (hlit : DistinctLiterals α) (ht : t.Tidy) :
    Spells Primary.Proper t.outline.outlineTokens t.render.toList :=
  ht.spells hlit (fun _ hp _ => hp) (fun _ _ hargs => .call fun a ha => (hargs a ha).1)
    fun _ ha _ => .parens ha

-- Outlines tell expressions apart.

theorem outline_ne_parens (t a : Expr α) : t.outline ≠ .number (.parens a) := by
  cases t with
  | number x =>
    rw [outline_number]
    split <;> nofun
  | _ => nofun

theorem magnitude_inj (hlit : DistinctLiterals α) {x y : α}
    (hxy : Scalar.lt x 0 = Scalar.lt y 0) (h : magnitude x = magnitude y) : x = y := by
  have ⟨m, _, hx⟩ := hlit.numeral x
  have ⟨n, _, hy⟩ := hlit.numeral y
  refine hlit.inj (String.toList_inj.mp ?_)
  rw [magnitude, magnitude, hx, hy, hxy] at h
  rw [hx, hy, hxy]
  split at h
  case isTrue hlt =>
    rw [if_pos hlt, if_pos hlt]
    exact congrArg ('-' :: ·) h
  case isFalse hlt =>
    rw [if_neg hlt, if_neg hlt]
    exact h

theorem enclosed_inj (ha : a.outline = b.outline → a = b)
    (h : enclosed n a a.outline = enclosed m b b.outline) : a = b := by
  cases n <;> cases m
  case false.false => exact ha h
  case false.true  => exact absurd h (outline_ne_parens a b)
  case true.false  => exact absurd h.symm (outline_ne_parens b a)
  case true.true   => exact Primary.parens.inj (number.inj h)

-- What looks like a negative number without being one is the negation of a number.
theorem exists_number_of_enclosed {text : List Char}
    (h : enclosed n a a.outline = .number (.numeral text)) : ∃ x, a = .number x := by
  cases n with
  | true  => cases h
  | false =>
    replace h : a.outline = .number (.numeral text) := h
    cases a with
    | number x => exact ⟨x, rfl⟩
    | _        => cases h

theorem outline_number_ne_neg {x : α} (ha : a.number? = none) :
    (number x).outline ≠ (neg a).outline := by
  intro h
  rw [outline_number] at h
  split at h
  case isTrue =>
    have ⟨y, hy⟩ := exists_number_of_enclosed (neg.inj h).symm
    cases hy ▸ ha
  case isFalse => cases h

theorem outline_number_ne {x : α} (hu : ∀ a, u ≠ .neg a) (hu' : ∀ y, u ≠ .number y) :
    (number x).outline ≠ u.outline := by
  rw [outline_number]
  cases u with
  | number y => exact absurd rfl (hu' y)
  | neg a    => exact absurd rfl (hu a)
  | _        => split <;> nofun

theorem outline_inj (hlit : DistinctLiterals α) (ht : t.Tidy) (hu : u.Tidy)
    (h : t.outline = u.outline) : t = u := by
  induction ht generalizing u with
  | number x =>
    cases hu with
    | number y =>
      rw [outline_number, outline_number] at h
      split at h <;> split at h
      case isTrue.isTrue hx hy =>
        have htext := Primary.numeral.inj (number.inj (neg.inj h))
        exact congrArg number (magnitude_inj hlit (hx.trans hy.symm) htext)
      case isFalse.isFalse hx hy =>
        have htext := Primary.numeral.inj (number.inj h)
        exact congrArg number (magnitude_inj hlit (by simp [hx, hy]) htext)
      all_goals cases h
    | neg ha _ => exact absurd h (outline_number_ne_neg ha)
    | _        => exact absurd h (outline_number_ne nofun nofun)
  | constant c =>
    cases hu with
    | constant d => cases h; rfl
    | number x   => exact absurd h.symm (outline_number_ne nofun nofun)
    | _          => cases h
  | var =>
    cases hu with
    | var      => cases h; rfl
    | number x => exact absurd h.symm (outline_number_ne nofun nofun)
    | _        => cases h
  | neg ha _ ih =>
    cases hu with
    | neg _ hb => rw [enclosed_inj (ih hb) (neg.inj h)]
    | number x => exact absurd h.symm (outline_number_ne_neg ha)
    | _        => cases h
  | binary _ _ _ iha ihb =>
    cases hu with
    | binary _ ha hb =>
      have ⟨hop, hl, hr⟩ := binary.inj h
      rw [hop, enclosed_inj (iha ha) hl, enclosed_inj (ihb hb) hr]
    | number x => exact absurd h.symm (outline_number_ne nofun nofun)
    | _        => cases h
  | call =>
    cases hu with
    | call     => cases h; rfl
    | number x => exact absurd h.symm (outline_number_ne nofun nofun)
    | _        => cases h

def Told (t : Expr α) : Prop :=
  ∀ {u : Expr α} {r r' : List Char}, u.Tidy → Closed r → Closed r' →
    t.render.toList ++ r = u.render.toList ++ r' → t = u ∧ r = r'

theorem Tidy.told_of_spells (hlit : DistinctLiterals α) (ht : t.Tidy)
    (h : Spells Primary.Told t.outline.outlineTokens t.render.toList) : t.Told := by
  intro u r r' hu hr hr' heq
  have ⟨hts, hrr⟩ := h.unique (hu.spells_proper hlit) hr hr' heq
  exact ⟨outline_inj hlit ht hu (eq_outline_of_outlineTokens hts), hrr⟩

def afterArgument (args : List (Expr α)) (r : List Char) : List Char :=
  match args with
  | []   => ')' :: r
  | args => ',' :: ' ' :: (renderAll args).toList ++ ')' :: r

theorem renderAll_cons (a : Expr α) (args : List (Expr α)) (r : List Char) :
    (renderAll (a :: args)).toList ++ ')' :: r = a.render.toList ++ afterArgument args r := by
  cases args with
  | nil  => rfl
  | cons => simp [renderAll, afterArgument]

theorem closed_afterArgument (args : List (Expr α)) (r : List Char) :
    Closed (afterArgument args r) := by
  cases args <;> exact HeadNot.cons_iff.mpr rfl

theorem eq_of_renderAll (hlit : DistinctLiterals α) (hargs : ∀ a ∈ args, a.Tidy ∧ a.Told)
    (hargs' : ∀ a ∈ args', a.Tidy)
    (h : (renderAll args).toList ++ ')' :: r = (renderAll args').toList ++ ')' :: r') :
    args = args' ∧ r = r' := by
  have hclosing {a : Expr α} {s s' : List Char} (ha : a.Tidy) :
      ')' :: s ≠ a.render.toList ++ s' := by
    have ⟨c, cs, hcs, hc⟩ := (ha.spells_proper hlit).exists_cons
    rw [hcs]
    exact fun h => hc (List.cons.inj h).1.symm
  induction args generalizing args' with
  | nil =>
    cases args' with
    | nil       => exact ⟨rfl, (List.cons.inj h).2⟩
    | cons b bs =>
      rw [renderAll_cons] at h
      exact absurd h (hclosing (hargs' b List.mem_cons_self))
  | cons a as ih =>
    have ⟨⟨ha, htold⟩, has⟩ := List.forall_mem_cons.mp hargs
    rw [renderAll_cons] at h
    cases args' with
    | nil       => exact absurd h.symm (hclosing ha)
    | cons b bs =>
      have ⟨hb, hbs⟩ := List.forall_mem_cons.mp hargs'
      rw [renderAll_cons] at h
      have ⟨hab, hrest⟩ := htold hb (closed_afterArgument as r) (closed_afterArgument bs r') h
      cases as <;> cases bs
      case nil.nil   => exact ⟨hab ▸ rfl, (List.cons.inj hrest).2⟩
      case nil.cons  => cases hrest
      case cons.nil  => cases hrest
      case cons.cons =>
        have ⟨htails, hrr⟩ := ih has hbs ((List.append_right_inj [',', ' ']).mp hrest)
        exact ⟨by rw [hab, htails], hrr⟩

end Expr

namespace Primary

variable {p : Primary α}

theorem told_of_enclosure (hp : p.Proper) (he : p.enclosure = []) : p.Told := by
  refine ⟨hp, fun {q r r'} hq hr hr' h => ?_⟩
  have ⟨⟨t, hpt, hqt⟩, hword, hrest⟩ := eq_of_text hp hq hr hr' h
  rw [he] at hrest
  cases hpt <;> cases hqt
  case numeral.numeral =>
    exact ⟨congrArg _ hword, hrest⟩
  case constant.constant => exact ⟨rfl, hrest⟩
  case var.var           => exact ⟨rfl, hrest⟩
  all_goals exact absurd he (by simp [enclosure])

theorem told_call {f : Elementary} {args : List (Expr α)} (hlit : DistinctLiterals α)
    (hargs : ∀ a ∈ args, a.Tidy ∧ a.Told) : (call f args).Told := by
  have hproper : (call f args).Proper := .call fun a ha => (hargs a ha).1
  refine ⟨hproper, fun {q r r'} hq hr hr' h => ?_⟩
  have ⟨⟨t, hpt, hqt⟩, _, hrest⟩ := eq_of_text hproper hq hr hr' h
  cases hpt
  cases hqt
  cases hq with
  | call hargs' =>
    simp only [enclosure_call, List.cons_append, List.append_assoc, List.cons.injEq, true_and,
      List.nil_append] at hrest
    have ⟨heq, hrr⟩ := Expr.eq_of_renderAll hlit hargs hargs' hrest
    exact ⟨heq ▸ rfl, hrr⟩

theorem told_parens {t : Expr α} (ht : t.Tidy) (htold : t.Told) : (parens t).Told := by
  refine ⟨.parens ht, fun {q r r'} hq hr hr' h => ?_⟩
  have ⟨⟨t, hpt, hqt⟩, _, hrest⟩ := eq_of_text (.parens ht) hq hr hr' h
  cases hpt
  cases hqt
  cases hq with
  | parens hu =>
    rw [enclosure_parens, enclosure_parens, List.append_assoc, List.append_assoc] at hrest
    have hclosed (s : List Char) : Closed ([')'] ++ s) := HeadNot.cons_iff.mpr rfl
    have ⟨heq, hrr⟩ := htold hu (hclosed r) (hclosed r') hrest
    exact ⟨heq ▸ rfl, (List.cons.inj hrr).2⟩

end Primary

-- Expressions with the same text are the same.
theorem Expr.Tidy.eq_of_render {t u : Expr α} (hlit : DistinctLiterals α) (ht : t.Tidy)
    (hu : u.Tidy) (h : t.render = u.render) : t = u := by
  have hspells : Spells Primary.Told t.outline.outlineTokens t.render.toList :=
    ht.spells hlit (fun _ => Primary.told_of_enclosure)
      (fun _ _ hargs => Primary.told_call hlit fun a ha =>
        ⟨(hargs a ha).1, (hargs a ha).1.told_of_spells hlit (hargs a ha).2⟩)
      fun _ ha hspells => Primary.told_parens ha (ha.told_of_spells hlit hspells)
  exact (ht.told_of_spells hlit hspells hu .nil .nil (by rw [h])).1

end InfixAlgebra
