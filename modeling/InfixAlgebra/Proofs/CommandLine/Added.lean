import InfixAlgebra.Proofs.CommandLine.Reading

namespace InfixAlgebra

namespace Arguments

variable {a a' : Arguments} {o : OptionName} {os : List OptionName} {s : Signature} {c : Char}
  {cs flags : List Char} {x' : Arguments × Option OptionName}

theorem find?_json {p : OptionName → Bool} (hs : s.options = .json :: os) (hp : p .json = true) :
    s.options.find? p = some .json := by
  rw [hs, List.find?_cons_of_pos hp]

theorem longOption_json (hs : s.options = .json :: os) (a : Arguments) :
    longOption s a ['j', 's', 'o', 'n'] = some (a.addOption .json "", none) := by
  have hspan : ['j', 's', 'o', 'n'].span (· != '=') = (['j', 's', 'o', 'n'], []) := by decide
  simp only [longOption, hspan, find?_json hs (p := (·.long.toList == ['j', 's', 'o', 'n'])) rfl]
  rfl

theorem shortOptions_json (hs : s.options = .json :: os) (a : Arguments) (cs : List Char) :
    shortOptions s a ('j' :: cs) = shortOptions s (a.addOption .json "") cs := by
  simp only [shortOptions, find?_json hs (p := (·.short? == some 'j')) rfl]
  rfl

theorem exists_short_of_shortOptions (h : shortOptions s a (c :: cs) ≠ none) :
    ∃ o : OptionName, o.short? = some c := by
  cases hfind : s.options.find? (·.short? == some c) with
  | none   => simp [shortOptions, hfind] at h
  | some o => exact ⟨o, by simpa using List.find?_some hfind⟩

theorem eq_verbose_of_short? (ho : o.short? = some 'v') : o = .verbose := by
  cases o <;> simp_all [OptionName.short?]

-- Wherever `json` stands among options without values, the others are read like without it.
theorem shortOptions_flags (hs : s.options = .json :: os) (hflags : ∀ c ∈ flags, c = 'v')
    (h : shortOptions s a (flags ++ 'j' :: cs) = some x') :
    ∃ x, shortOptions s a (flags ++ cs) = some x ∧ OptionsWithJson x x' := by
  induction flags generalizing a with
  | nil =>
    rw [List.nil_append, shortOptions_json hs] at h
    exact exists_left_of_rel ((WithJson.addJson a "").shortOptions cs) h
  | cons c flags ih =>
    obtain ⟨rfl, hrest⟩ := List.forall_mem_cons.mp hflags
    simp only [List.cons_append, shortOptions] at h ⊢
    cases hfind : s.options.find? (·.short? == some 'v') with
    | none   => simp [hfind] at h
    | some o =>
      obtain rfl := eq_verbose_of_short? (by simpa using List.find?_some hfind)
      rw [hfind] at h
      exact ih hrest h

-- A short option does not look like a number.
theorem isPlainNumber_short (hc : o.short? = some c) (cs : List Char) :
    isPlainNumber (c :: cs) = false := by
  obtain ⟨hdigit, hpoint, hpower⟩ :
      c.isDigit = false ∧ c ≠ '.' ∧ (c != 'e' && c != 'E') = true := by
    cases o <;> cases hc <;> decide
  have hmantissa (ds : List Char) : isPlainNumber.isMantissa (c :: ds) = false := by
    simp [isPlainNumber.isMantissa, hdigit, hpoint]
  simp only [isPlainNumber, List.span_eq_takeWhile_dropWhile,
    List.takeWhile_cons_of_pos (p := fun c => c != 'e' && c != 'E') hpower]
  split
  case h_1 heq => rw [← (Prod.mk.inj heq).1, hmantissa]
  case h_2 heq => simp [← (Prod.mk.inj heq).1, hmantissa]

namespace Reading

variable {r q q' : Reading} {arg arg' name : String} {args : List String}

theorem isNegativeOperand_short (hc : o.short? = some c) (s : Signature) (r : Reading)
    (cs : List Char) : r.isNegativeOperand s (c :: cs) = false := by
  rw [isNegativeOperand, isPlainNumber_short hc, Bool.and_false]

theorem form_short (hc : c ≠ '-') (harg : arg.toList = '-' :: c :: cs) :
    form arg = .short (c :: cs) := by
  simp only [form, harg]
  split <;> simp_all

-- What is joined to one dash are options.
theorem next_short (hr : r.onlyOperands = false) (hc : o.short? = some c)
    (harg : arg.toList = '-' :: c :: cs) :
    r.next s arg =
      if r.pending.isNone then withOptions (shortOptions s r.arguments (c :: cs)) else none := by
  have hdash : c ≠ '-' := by cases o <;> cases hc <;> decide
  have hform := form_short hdash harg
  cases hpending : r.pending <;>
    simp [Reading.next, hr, hpending, hform, isNegativeOperand_short hc]

-- Where no value is waited for, one more argument asks for data.
theorem next_json (hs : s.options = .json :: os) (hr : r.onlyOperands = false)
    (harg : arg = "--json" ∨ arg = "-j") :
    r.next s arg = if r.pending.isNone then some r.addJson else none := by
  rcases harg with rfl | rfl
  case inl =>
    have hform : form "--json" = .long ['j', 's', 'o', 'n'] := rfl
    cases hpending : r.pending <;>
      simp [Reading.next, hr, hpending, hform, longOption_json hs, addJson, withOptions]
  case inr =>
    have hj : OptionName.json.short? = some 'j' := rfl
    rw [next_short hr hj rfl, shortOptions_json hs]
    cases hpending : r.pending <;> simp [hpending, shortOptions, addJson, withOptions, hr]

theorem next_joined (hs : s.options = .json :: os) (hr : r.onlyOperands = false)
    (hflags : ∀ c ∈ flags, c = 'v') (hne : flags ++ cs ≠ [])
    (harg : arg.toList = '-' :: (flags ++ cs)) (harg' : arg'.toList = '-' :: (flags ++ 'j' :: cs))
    (hnext : r.next s arg' = some q') : ∃ q, r.next s arg = some q ∧ q.WithJson q' := by
  have hfirst : ∃ (o : OptionName) (c : Char) (ds : List Char),
      flags ++ 'j' :: cs = c :: ds ∧ o.short? = some c := by
    cases flags with
    | nil          => exact ⟨.json, 'j', cs, rfl, rfl⟩
    | cons c flags => exact ⟨.verbose, c, _, rfl, by rw [hflags c List.mem_cons_self]; rfl⟩
  obtain ⟨o', c', ds', hds', ho'⟩ := hfirst
  rw [next_short hr ho' (hds' ▸ harg'), ← hds'] at hnext
  obtain ⟨hpending, hread⟩ := Option.ite_none_right_eq_some.mp hnext
  obtain ⟨x', hx', rfl⟩ := Option.map_eq_some_iff.mp hread
  obtain ⟨x, hx, hwith⟩ := shortOptions_flags hs hflags hx'
  obtain ⟨c, ds, hds⟩ := List.exists_cons_of_ne_nil hne
  rw [hds] at hx harg
  obtain ⟨o, ho⟩ := exists_short_of_shortOptions (ne_of_eq_of_ne hx (Option.some_ne_none x))
  refine ⟨⟨x.1, x.2, false⟩, ?_, hwith.1, hwith.2.symm, rfl⟩
  rw [next_short hr ho harg, if_pos hpending, hx]
  rfl

theorem onlyOperands_withOptions {x : Option (Arguments × Option OptionName)}
    (h : withOptions x = some q) : q.onlyOperands = false := by
  obtain ⟨⟨a, pending⟩, -, rfl⟩ := Option.map_eq_some_iff.mp h
  rfl

theorem form_ne_dashes (harg : arg ≠ "--") : form arg ≠ .dashes := by
  unfold form
  split
  case h_1 h => exact absurd (String.toList_inj.mp h) harg
  all_goals simp

-- Only two dashes make operands of all that follows.
theorem onlyOperands_next (hr : r.onlyOperands = false) (harg : arg ≠ "--")
    (hnext : r.next s arg = some q) : q.onlyOperands = false := by
  simp only [Reading.next, hr, Bool.false_eq_true, if_false] at hnext
  split at hnext
  case h_1 hform => exact absurd hform (form_ne_dashes harg)
  case h_2 => cases hnext; exact hr
  case h_3 => exact onlyOperands_withOptions hnext
  case h_4 =>
    split at hnext
    · cases hnext; exact hr
    · exact onlyOperands_withOptions hnext
  case h_5 => cases hnext; rfl
  case h_6 =>
    split at hnext
    · cases hnext; rfl
    · cases hnext
  case h_7 => cases hnext

theorem untilName_json (hs : s.options = .json :: os) (hr : r.onlyOperands = false)
    (harg : arg = "--json" ∨ arg = "-j") (args : List String) :
    r.untilName s (arg :: args) =
      if r.pending.isNone then r.addJson.untilName s args else none := by
  have hmeets : ¬r.meetsName arg := by
    rcases harg with rfl | rfl
    · exact not_meetsName (c := '-') rfl
    · exact not_meetsName (c := 'j') rfl
  rw [untilName, if_neg hmeets, next_json hs hr harg]
  split <;> rfl

end Reading

-- Lists of arguments of which the second one asks for data once more: with an argument of its own,
-- or with a letter among those behind one dash. Behind two dashes no options are asked for.
inductive AddsJson : List String → List String → Prop
  | alone {arg : String} (args : List String) (harg : arg = "--json" ∨ arg = "-j") :
      AddsJson args (arg :: args)
  | joined {arg arg' : String} {flags cs : List Char} (args : List String)
      (hflags : ∀ c ∈ flags, c = 'v') (hne : flags ++ cs ≠ [])
      (harg : arg.toList = '-' :: (flags ++ cs))
      (harg' : arg'.toList = '-' :: (flags ++ 'j' :: cs)) : AddsJson (arg :: args) (arg' :: args)
  | cons {arg : String} {args args' : List String} (hne : arg ≠ "--") (h : AddsJson args args') :
      AddsJson (arg :: args) (arg :: args')

def extent (args : List String) : Nat :=
  (args.map fun arg => arg.toList.length + 1).sum

namespace AddsJson

variable {args args' rest' : List String} {name : String} {r q' : Reading}

theorem extent_lt (h : AddsJson args args') : extent args < extent args' := by
  induction h with
  | alone args harg                    => simp [extent]
  | joined args hflags hne harg harg' => simp [extent, harg, harg']
  | cons hne h ih                      => simpa [extent] using ih

theorem foldlM (h : AddsJson args args') (hs : s.options = .json :: os)
    (hr : r.onlyOperands = false) (hq' : args'.foldlM (Reading.next s) r = some q') :
    ∃ q, args.foldlM (Reading.next s) r = some q ∧ q.WithJson q' := by
  induction h generalizing r with
  | alone args harg =>
    rw [List.foldlM_cons, Reading.next_json hs hr harg] at hq'
    split at hq'
    case isTrue  => exact exists_left_of_rel (r.withJson_addJson.foldlM args) hq'
    case isFalse => cases hq'
  | joined args hflags hne harg harg' =>
    obtain ⟨p', hnext', hread'⟩ := Option.bind_eq_some_iff.mp hq'
    obtain ⟨p, hnext, hwith⟩ := Reading.next_joined hs hr hflags hne harg harg' hnext'
    rw [List.foldlM_cons, hnext]
    exact exists_left_of_rel (hwith.foldlM args) hread'
  | cons hne h ih =>
    obtain ⟨p, hnext, hread⟩ := Option.bind_eq_some_iff.mp hq'
    rw [List.foldlM_cons, hnext]
    exact ih (Reading.onlyOperands_next hr hne hnext) hread

theorem parse? (h : AddsJson args args') (hs : s.options = .json :: os)
    (ha' : parse? s args' = some a') : ∃ a, parse? s args = some a ∧ a.WithJson a' := by
  obtain ⟨q', hq', hfinish'⟩ := Option.bind_eq_some_iff.mp ha'
  obtain ⟨q, hq, hwith⟩ := h.foldlM hs rfl hq'
  obtain ⟨a, hfinish, ha⟩ := hwith.finish hfinish'
  exact ⟨a, Option.bind_eq_some_iff.mpr ⟨q, hq, hfinish⟩, ha⟩

-- The argument that is added stands before the name of the command or behind it.
theorem untilName (h : AddsJson args args') (hs : s.options = .json :: os)
    (hr : r.onlyOperands = false) (hq' : r.untilName s args' = some (q', name, rest')) :
    (∃ q, r.untilName s args = some (q, name, rest') ∧ q.WithJson q') ∨
      ∃ rest, r.untilName s args = some (q', name, rest) ∧ AddsJson rest rest' := by
  induction h generalizing r with
  | alone args harg =>
    rw [Reading.untilName_json hs hr harg] at hq'
    exact .inl (r.withJson_addJson.exists_untilName (Option.ite_none_right_eq_some.mp hq').2)
  | @joined arg arg' flags cs args hflags hne harg harg' =>
    obtain ⟨c, ds, hds⟩ := List.exists_cons_of_ne_nil hne
    obtain ⟨c', ds', hds'⟩ : ∃ c ds, flags ++ 'j' :: cs = c :: ds :=
      List.exists_cons_of_ne_nil (by simp)
    have hmeets : ¬r.meetsName arg := Reading.not_meetsName (hds ▸ harg)
    have hmeets' : ¬r.meetsName arg' := Reading.not_meetsName (hds' ▸ harg')
    rw [Reading.untilName, if_neg hmeets'] at hq'
    obtain ⟨p', hnext', hread'⟩ := Option.bind_eq_some_iff.mp hq'
    obtain ⟨p, hnext, hwith⟩ := Reading.next_joined hs hr hflags hne harg harg' hnext'
    rw [Reading.untilName, if_neg hmeets, hnext]
    exact .inl (hwith.exists_untilName hread')
  | @cons arg args args' hne h ih =>
    rw [Reading.untilName] at hq' ⊢
    split at hq'
    case isTrue hmeets =>
      cases hq'
      exact .inr ⟨args, by rw [if_pos hmeets], h⟩
    case isFalse hmeets =>
      obtain ⟨p, hnext, hread⟩ := Option.bind_eq_some_iff.mp hq'
      rw [if_neg hmeets, hnext]
      exact ih (Reading.onlyOperands_next hr hne hnext) hread

theorem splitAtName? (h : AddsJson args args') (hs : s.options = .json :: os)
    (ha' : splitAtName? s args' = some (a', name, rest')) :
    (∃ a, splitAtName? s args = some (a, name, rest') ∧ a.WithJson a') ∨
      ∃ rest, splitAtName? s args = some (a', name, rest) ∧ AddsJson rest rest' := by
  simp only [Reading.splitAtName?_eq_some_iff] at ha' ⊢
  obtain ⟨q', hq', hfinish'⟩ := ha'
  rcases h.untilName hs rfl hq' with ⟨q, hq, hwith⟩ | ⟨rest, hq, hrest⟩
  case inl =>
    obtain ⟨a, hfinish, ha⟩ := hwith.finish hfinish'
    exact .inl ⟨a, ⟨q, hq, hfinish⟩, ha⟩
  case inr => exact .inr ⟨rest, ⟨q', hq, hfinish'⟩, hrest⟩

end AddsJson

-- In front of everything else there is always room for an argument that asks for data.
theorem splitAtName?_json {arg name : String} {args rest : List String}
    (hs : s.options = .json :: os) (harg : arg = "--json" ∨ arg = "-j")
    (ha : splitAtName? s args = some (a, name, rest)) (htext : a.has .json = false) :
    ∃ a', splitAtName? s (arg :: args) = some (a', name, rest) ∧ a.WithJson a' := by
  simp only [Reading.splitAtName?_eq_some_iff] at ha ⊢
  obtain ⟨q, hq, hfinish⟩ := ha
  have hstart : Reading.start.untilName s (arg :: args) = Reading.start.addJson.untilName s args :=
    (Reading.untilName_json hs rfl harg args).trans (if_pos rfl)
  obtain ⟨⟨q', _⟩, hq', hwith, rfl⟩ :=
    exists_right_of_rel (Reading.start.withJson_addJson.untilName args) hq
  obtain ⟨a', hfinish', ha⟩ := hwith.finish_of_text hfinish htext
  exact ⟨a', ⟨q', hstart.trans hq', hfinish'⟩, ha⟩

end Arguments

end InfixAlgebra
