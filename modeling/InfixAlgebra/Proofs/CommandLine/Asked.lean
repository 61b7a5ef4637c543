import InfixAlgebra.Proofs.CommandLine.Added

namespace InfixAlgebra

namespace Arguments

variable {a : Arguments} {o : OptionName} {s : Signature} {cs : List Char}
  {x : Arguments × Option OptionName}

theorem has_addOption (h : a.has .json = false) (ho : o ≠ .json) (value : String) :
    (a.addOption o value).has .json = false := by
  simpa [has, values_addOption, ho] using h

def IsText (x : Arguments × Option OptionName) : Prop :=
  x.1.has .json = false ∧ x.2 ≠ some .json

theorem isText_addOption (h : a.has .json = false) (ho : o ≠ .json) (value : String) :
    IsText (a.addOption o value, none) :=
  ⟨has_addOption h ho value, by simp⟩

theorem isText_pending (h : a.has .json = false) (ho : o ≠ .json) : IsText (a, some o) :=
  ⟨h, by simpa using ho⟩

theorem isText_of_shortOptions (ha : a.has .json = false) (h : shortOptions s a cs = some x) :
    IsText x ∨ ∃ flags rest, (∀ c ∈ flags, c = 'v') ∧ cs = flags ++ 'j' :: rest := by
  induction cs generalizing a with
  | nil =>
    cases h
    exact .inl ⟨ha, nofun⟩
  | cons c cs ih =>
    obtain ⟨o, hfind, hread⟩ := Option.bind_eq_some_iff.mp h
    have ho : o.short? = some c := by simpa using List.find?_some hfind
    split at hread
    case isTrue hvalue =>
      have hne : o ≠ .json := by rintro rfl; cases hvalue
      left
      split at hread <;> cases hread
      · exact isText_addOption ha hne _
      · exact isText_pending ha hne
    case isFalse hvalue =>
      by_cases hjson : o = .json
      case pos =>
        subst hjson
        cases ho
        exact .inr ⟨[], cs, nofun, rfl⟩
      case neg =>
        have hc : c = 'v' := by cases o <;> cases ho <;> simp_all [OptionName.takesValue]
        refine (ih (has_addOption ha hjson "") hread).imp id ?_
        rintro ⟨flags, rest, hflags, rfl⟩
        exact ⟨c :: flags, rest, List.forall_mem_cons.mpr ⟨hc, hflags⟩, rfl⟩

theorem isText_of_longOption (ha : a.has .json = false) (h : longOption s a cs = some x) :
    IsText x ∨ cs = ['j', 's', 'o', 'n'] := by
  rw [longOption, List.span_eq_takeWhile_dropWhile] at h
  obtain ⟨o, hfind, h⟩ := Option.bind_eq_some_iff.mp h
  have ho : o.long.toList = cs.takeWhile (· != '=') := by simpa using List.find?_some hfind
  have hne (hvalue : o.takesValue = true) : o ≠ .json := by rintro rfl; cases hvalue
  split at h
  case h_1 hvalue _ => cases h; exact .inl (isText_pending ha (hne hvalue))
  case h_2 hvalue _ => cases h; exact .inl (isText_addOption ha (hne hvalue) _)
  case h_3 hrest =>
    cases h
    by_cases hjson : o = .json
    case pos =>
      right
      rw [← List.takeWhile_append_dropWhile (p := (· != '=')) (l := cs), ← ho, hrest, hjson]
      rfl
    case neg => exact .inl (isText_addOption ha hjson _)
  case h_4 => cases h

namespace Reading

variable {r q : Reading} {arg name : String} {args rest : List String}

structure IsText (r : Reading) : Prop where
  options : r.arguments.has .json = false
  pending : r.pending ≠ some .json

theorem IsText.addOperand (h : r.IsText) (arg : String) : (r.addOperand arg).IsText :=
  ⟨h.options, h.pending⟩

theorem IsText.addOption (h : r.IsText) (hpending : r.pending = some o) (value : String) :
    IsText ⟨r.arguments.addOption o value, none, false⟩ :=
  ⟨has_addOption h.options (fun ho => h.pending (ho ▸ hpending)) value, nofun⟩

theorem toList_of_form_long (h : form arg = .long cs) : arg.toList = '-' :: '-' :: cs := by
  unfold form at h
  split at h <;> simp_all

theorem toList_of_form_short (h : form arg = .short cs) : arg.toList = '-' :: cs := by
  unfold form at h
  split at h <;> simp_all

theorem exists_addsJson_of_short {flags rest : List Char} (hflags : ∀ c ∈ flags, c = 'v')
    (harg : arg.toList = '-' :: (flags ++ 'j' :: rest)) (args : List String) :
    ∃ args', AddsJson args' (arg :: args) := by
  by_cases hne : flags ++ rest = []
  case pos =>
    obtain ⟨rfl, rfl⟩ := List.append_eq_nil_iff.mp hne
    exact ⟨args, .alone args (.inr (String.toList_inj.mp harg))⟩
  case neg => exact ⟨_, .joined args hflags hne (String.toList_ofList) harg⟩

theorem isText_next (hr : r.IsText) (honly : r.onlyOperands = false)
    (hnext : r.next s arg = some q) :
    q.IsText ∨ ∀ args, ∃ args', AddsJson args' (arg :: args) := by
  simp only [Reading.next, honly, Bool.false_eq_true, if_false] at hnext
  split at hnext
  case h_1 => cases hnext; exact .inl ⟨hr.options, hr.pending⟩
  case h_2 => cases hnext; exact .inl (hr.addOperand arg)
  case h_3 hform =>
    obtain ⟨x, hx, rfl⟩ := Option.map_eq_some_iff.mp hnext
    refine (isText_of_longOption hr.options hx).imp (fun h => ⟨h.1, h.2⟩) ?_
    rintro rfl args
    exact ⟨args, .alone args (.inl (String.toList_inj.mp (toList_of_form_long hform)))⟩
  case h_4 hform =>
    split at hnext
    case isTrue => cases hnext; exact .inl (hr.addOperand arg)
    case isFalse =>
      obtain ⟨x, hx, rfl⟩ := Option.map_eq_some_iff.mp hnext
      refine (isText_of_shortOptions hr.options hx).imp (fun h => ⟨h.1, h.2⟩) ?_
      rintro ⟨flags, rest, hflags, rfl⟩ args
      exact exists_addsJson_of_short hflags (toList_of_form_short hform) args
  case h_5 hpending _ => cases hnext; exact .inl (hr.addOption hpending arg)
  case h_6 hpending _ =>
    split at hnext
    · cases hnext; exact .inl (hr.addOption hpending arg)
    · cases hnext
  case h_7 => cases hnext

theorem onlyOperands_dashes (honly : r.onlyOperands = false) (hnext : r.next s "--" = some q) :
    q.onlyOperands = true := by
  have hform : form "--" = .dashes := rfl
  cases hpending : r.pending <;> simp [Reading.next, honly, hpending, hform] at hnext
  rw [← hnext]

-- Behind two dashes no data is asked for.
theorem isText_foldlM (hr : r.IsText) (honly : r.onlyOperands = true)
    (hq : args.foldlM (next s) r = some q) : q.IsText := by
  induction args generalizing r with
  | nil           => cases hq; exact hr
  | cons arg args ih =>
    have hnext : r.next s arg = some (r.addOperand arg) := by rw [next, if_pos honly]
    rw [List.foldlM_cons, hnext] at hq
    exact ih (hr.addOperand arg) honly hq

theorem untilName_onlyOperands (honly : r.onlyOperands = true) : r.untilName s args = none := by
  induction args generalizing r with
  | nil           => rfl
  | cons arg args ih =>
    have hnext : r.next s arg = some (r.addOperand arg) := by rw [next, if_pos honly]
    have hmeets : ¬r.meetsName arg := by simp [meetsName_iff, honly]
    rw [untilName, if_neg hmeets, hnext]
    exact ih honly

theorem exists_addsJson_of_foldlM (hr : r.IsText) (honly : r.onlyOperands = false)
    (hq : args.foldlM (next s) r = some q) (hdata : ¬q.IsText) : ∃ args', AddsJson args' args := by
  induction args generalizing r with
  | nil           => cases hq; exact absurd hr hdata
  | cons arg args ih =>
    obtain ⟨p, hnext, hread⟩ := Option.bind_eq_some_iff.mp hq
    rcases isText_next hr honly hnext with hp | hasks
    case inr => exact hasks args
    by_cases harg : arg = "--"
    case pos =>
      subst harg
      exact absurd (isText_foldlM hp (onlyOperands_dashes honly hnext) hread) hdata
    case neg =>
      obtain ⟨args', h⟩ := ih hp (onlyOperands_next honly harg hnext) hread
      exact ⟨_, .cons harg h⟩

-- Data is asked for before the name of a command, or behind it.
theorem exists_addsJson_of_untilName (hr : r.IsText) (honly : r.onlyOperands = false)
    (hq : r.untilName s args = some (q, name, rest))
    (hdata : ¬q.IsText ∨ ∃ rest', AddsJson rest' rest) : ∃ args', AddsJson args' args := by
  induction args generalizing r with
  | nil           => cases hq
  | cons arg args ih =>
    rw [untilName] at hq
    split at hq
    case isTrue hmeets =>
      cases hq
      obtain ⟨rest', hrest⟩ := hdata.resolve_left (not_not.mpr hr)
      have harg : name ≠ "--" := by
        rintro rfl
        exact not_meetsName (c := '-') rfl hmeets
      exact ⟨_, .cons harg hrest⟩
    case isFalse =>
      obtain ⟨p, hnext, hread⟩ := Option.bind_eq_some_iff.mp hq
      rcases isText_next hr honly hnext with hp | hasks
      case inr => exact hasks args
      by_cases harg : arg = "--"
      case pos =>
        subst harg
        rw [untilName_onlyOperands (onlyOperands_dashes honly hnext)] at hread
        cases hread
      case neg =>
        obtain ⟨args', h⟩ := ih hp (onlyOperands_next honly harg hnext) hread
        exact ⟨_, .cons harg h⟩

theorem isText_start : start.IsText :=
  ⟨rfl, nofun⟩

end Reading

theorem exists_addsJson_of_parse? {args : List String} (ha : parse? s args = some a)
    (hdata : a.has .json = true) : ∃ args', AddsJson args' args := by
  obtain ⟨q, hq, hfinish⟩ := Option.bind_eq_some_iff.mp ha
  obtain ⟨rfl, -⟩ := Reading.finish_eq_some_iff.mp hfinish
  refine Reading.exists_addsJson_of_foldlM Reading.isText_start rfl hq fun h => ?_
  simp [h.options] at hdata

theorem exists_addsJson_of_splitAtName? {args rest : List String} {name : String}
    (ha : splitAtName? s args = some (a, name, rest))
    (hdata : a.has .json = true ∨ ∃ rest', AddsJson rest' rest) : ∃ args', AddsJson args' args := by
  obtain ⟨q, hq, hfinish⟩ := Reading.splitAtName?_eq_some_iff.mp ha
  obtain ⟨rfl, -⟩ := Reading.finish_eq_some_iff.mp hfinish
  refine Reading.exists_addsJson_of_untilName Reading.isText_start rfl hq (hdata.imp ?_ id)
  intro hdata h
  simp [h.options] at hdata

end Arguments

end InfixAlgebra
