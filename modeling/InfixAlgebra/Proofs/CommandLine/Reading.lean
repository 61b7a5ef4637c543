import Mathlib
import InfixAlgebra.CommandLine.Invocation

namespace InfixAlgebra

theorem rel_bind {α α' β β' : Type} {R : α → α' → Prop} {S : β → β' → Prop} {x : Option α}
    {x' : Option α'} {f : α → Option β} {f' : α' → Option β'} (h : Option.Rel R x x')
    (hf : ∀ y y', R y y' → Option.Rel S (f y) (f' y')) : Option.Rel S (x.bind f) (x'.bind f') := by
  cases h with
  | none   => exact .none
  | some h => exact hf _ _ h

theorem exists_left_of_rel {α α' : Type} {R : α → α' → Prop} {x : Option α} {x' : Option α'}
    {y' : α'} (h : Option.Rel R x x') (hx' : x' = some y') : ∃ y, x = some y ∧ R y y' := by
  subst hx'
  cases h with
  | some h => exact ⟨_, rfl, h⟩

theorem exists_right_of_rel {α α' : Type} {R : α → α' → Prop} {x : Option α} {x' : Option α'}
    {y : α} (h : Option.Rel R x x') (hx : x = some y) : ∃ y', x' = some y' ∧ R y y' := by
  subst hx
  cases h with
  | some h => exact ⟨_, rfl, h⟩

namespace Arguments

variable {a a' : Arguments} {o : OptionName} {s : Signature} {cs : List Char}

theorem values_addOption (a : Arguments) (o o' : OptionName) (value : String) :
    (a.addOption o value).values o' = a.values o' ++ if o = o' then [value] else [] := by
  by_cases h : o = o' <;> simp [values, addOption, h]

structure WithJson (a a' : Arguments) : Prop where
  operands : a'.operands = a.operands
  others   : ∀ o, o ≠ .json → a'.values o = a.values o
  json     : (a'.values .json).length = (a.values .json).length + 1

def OptionsWithJson (x x' : Arguments × Option OptionName) : Prop :=
  x.1.WithJson x'.1 ∧ x.2 = x'.2

namespace WithJson

theorem addJson (a : Arguments) (value : String) : a.WithJson (a.addOption .json value) where
  operands := rfl
  others o ho := by simp [values_addOption, ho.symm]
  json := by simp [values_addOption]

theorem addOption (h : a.WithJson a') (o : OptionName) (value : String) :
    (a.addOption o value).WithJson (a'.addOption o value) where
  operands := h.operands
  others o' ho' := by simp only [values_addOption, h.others o' ho']
  json := by
    have hjson := h.json
    simp only [values_addOption, List.length_append]
    omega

theorem addOperand (h : a.WithJson a') (value : String) :
    (a.addOperand value).WithJson (a'.addOperand value) where
  operands := congrArg (· ++ [value]) h.operands
  others   := h.others
  json     := h.json

theorem value?_eq (h : a.WithJson a') (ho : o ≠ .json) : a'.value? o = a.value? o :=
  congrArg List.getLast? (h.others o ho)

theorem has_json (h : a.WithJson a') : a'.has .json = true := by
  have hjson := h.json
  cases hvalues : a'.values .json with
  | nil  => simp [hvalues] at hjson
  | cons => simp [has, hvalues]

theorem shortOptions (h : a.WithJson a') (cs : List Char) :
    Option.Rel OptionsWithJson (shortOptions s a cs) (shortOptions s a' cs) := by
  induction cs generalizing a a' with
  | nil          => exact .some ⟨h, rfl⟩
  | cons c cs ih =>
    simp only [Arguments.shortOptions]
    cases s.options.find? (·.short? == some c) with
    | none   => exact .none
    | some o =>
      simp only [Option.bind_eq_bind, Option.bind_some]
      split
      case isTrue =>
        cases attached? cs with
        | none   => exact .some ⟨h, rfl⟩
        | some v => exact .some ⟨h.addOption o v, rfl⟩
      case isFalse => exact ih (h.addOption o "")

theorem longOption (h : a.WithJson a') (cs : List Char) :
    Option.Rel OptionsWithJson (longOption s a cs) (longOption s a' cs) := by
  simp only [Arguments.longOption]
  cases s.options.find? (·.long.toList == (cs.span (· != '=')).1) with
  | none   => exact .none
  | some o =>
    simp only [Option.bind_eq_bind, Option.bind_some]
    split
    · exact .some ⟨h, rfl⟩
    · exact .some ⟨h.addOption o _, rfl⟩
    · exact .some ⟨h.addOption o "", rfl⟩
    · exact .none

end WithJson

namespace Reading

variable {r r' q q' : Reading} {arg name : String} {args rest rest' : List String}

structure WithJson (r r' : Reading) : Prop where
  arguments    : r.arguments.WithJson r'.arguments
  pending      : r'.pending = r.pending
  onlyOperands : r'.onlyOperands = r.onlyOperands

def addJson (r : Reading) : Reading :=
  { r with arguments := r.arguments.addOption .json "" }

theorem withJson_addJson (r : Reading) : r.WithJson r.addJson where
  arguments    := .addJson _ _
  pending      := rfl
  onlyOperands := rfl

namespace WithJson

theorem addOperand (h : r.WithJson r') (arg : String) :
    (r.addOperand arg).WithJson (r'.addOperand arg) where
  arguments    := h.arguments.addOperand arg
  pending      := h.pending
  onlyOperands := h.onlyOperands

theorem isNegativeOperand_eq (h : r.WithJson r') (cs : List Char) :
    r'.isNegativeOperand s cs = r.isNegativeOperand s cs := by
  rw [isNegativeOperand, isNegativeOperand, h.arguments.operands]

theorem withOptions {x x' : Option (Arguments × Option OptionName)}
    (h : Option.Rel OptionsWithJson x x') :
    Option.Rel WithJson (withOptions x) (withOptions x') := by
  cases h with
  | none   => exact .none
  | some h => exact .some ⟨h.1, h.2.symm, rfl⟩

theorem next (h : r.WithJson r') (arg : String) :
    Option.Rel WithJson (r.next s arg) (r'.next s arg) := by
  simp only [Reading.next, h.pending, h.onlyOperands, h.isNegativeOperand_eq]
  have hadd (o : OptionName) (value : String) :
      WithJson ⟨r.arguments.addOption o value, none, false⟩
        ⟨r'.arguments.addOption o value, none, false⟩ :=
    ⟨h.arguments.addOption o value, rfl, rfl⟩
  split
  case isTrue => exact .some (h.addOperand arg)
  split
  case h_1 => exact .some ⟨h.arguments, rfl, rfl⟩
  case h_2 => exact .some (h.addOperand arg)
  case h_3 => exact withOptions (h.arguments.longOption _)
  case h_4 =>
    split
    · exact .some (h.addOperand arg)
    · exact withOptions (h.arguments.shortOptions _)
  case h_5 => exact .some (hadd _ arg)
  case h_6 =>
    split
    · exact .some (hadd _ arg)
    · exact .none
  case h_7 => exact .none

theorem foldlM (h : r.WithJson r') (args : List String) :
    Option.Rel WithJson (args.foldlM (Reading.next s) r) (args.foldlM (Reading.next s) r') := by
  induction args generalizing r r' with
  | nil           => exact .some h
  | cons arg args ih =>
    simp only [List.foldlM_cons, Option.bind_eq_bind]
    exact rel_bind (h.next arg) fun _ _ hnext => ih hnext

end WithJson

-- Everything that has been read stands where it may.
theorem finish_eq_some_iff :
    r.finish s = some a ↔ r.arguments = a ∧ r.pending = none ∧ a.operands.length = s.operands ∧
      ∀ o ∈ s.options, o.isRepeatable = true ∨ (a.values o).length ≤ 1 := by
  simp only [finish, Option.ite_none_right_eq_some, Option.some.injEq, Bool.and_eq_true,
    Option.isNone_iff_eq_none, beq_iff_eq, List.all_eq_true, Bool.or_eq_true, decide_eq_true_eq]
  constructor
  case mp =>
    rintro ⟨⟨⟨hpending, hoperands⟩, honce⟩, rfl⟩
    exact ⟨rfl, hpending, hoperands, honce⟩
  case mpr =>
    rintro ⟨rfl, hpending, hoperands, honce⟩
    exact ⟨⟨⟨hpending, hoperands⟩, honce⟩, rfl⟩

theorem WithJson.finish (h : r.WithJson r') (hfinish : r'.finish s = some a') :
    ∃ a, r.finish s = some a ∧ a.WithJson a' := by
  obtain ⟨rfl, hpending, hoperands, honce⟩ := finish_eq_some_iff.mp hfinish
  refine ⟨r.arguments, finish_eq_some_iff.mpr ⟨rfl, ?_, ?_, fun o ho => ?_⟩, h.arguments⟩
  · rw [← h.pending, hpending]
  · rw [← h.arguments.operands, hoperands]
  · refine (honce o ho).imp id fun hlength => ?_
    by_cases hjson : o = .json
    case pos =>
      subst hjson
      have := h.arguments.json
      omega
    case neg => rwa [← h.arguments.others o hjson]

-- Nobody may ask for data twice in one place.
theorem WithJson.finish_of_text (h : r.WithJson r') (hfinish : r.finish s = some a)
    (htext : a.has .json = false) :
    ∃ a', r'.finish s = some a' ∧ a.WithJson a' := by
  obtain ⟨rfl, hpending, hoperands, honce⟩ := finish_eq_some_iff.mp hfinish
  refine ⟨r'.arguments, finish_eq_some_iff.mpr ⟨rfl, ?_, ?_, fun o ho => ?_⟩, h.arguments⟩
  · rw [h.pending, hpending]
  · rw [h.arguments.operands, hoperands]
  · by_cases hjson : o = .json
    case pos =>
      subst hjson
      have hnone : r.arguments.values .json = [] := by simpa [has] using htext
      exact .inr (by rw [h.arguments.json, hnone]; rfl)
    case neg => rw [h.arguments.others o hjson]; exact honce o ho

-- The name of the command is the first argument that is neither an option nor the value of one.
def meetsName (r : Reading) (arg : String) : Bool :=
  match r.pending, r.onlyOperands, form arg with
  | none, false, .other => true
  | _, _, _             => false

theorem meetsName_iff :
    r.meetsName arg = true ↔ r.pending = none ∧ r.onlyOperands = false ∧ form arg = .other := by
  unfold meetsName
  split <;> simp_all

theorem not_meetsName {c : Char} (harg : arg.toList = '-' :: c :: cs) : ¬r.meetsName arg := by
  intro h
  have hform := (meetsName_iff.mp h).2.2
  unfold form at hform
  rw [harg] at hform
  split at hform <;> simp_all

def untilName (s : Signature) (r : Reading) : List String → Option (Reading × String × List String)
  | []          => none
  | arg :: args =>
    if r.meetsName arg then some (r, arg, args) else (r.next s arg).bind fun q => q.untilName s args

theorem splitAtName?_go_eq (s : Signature) (r : Reading) (args : List String) :
    splitAtName?.go s r args =
      (r.untilName s args).bind fun (q, name, rest) =>
        (q.finish s).map fun a => (a, name, rest) := by
  induction args generalizing r with
  | nil           => rfl
  | cons arg args ih =>
    rw [splitAtName?.go, untilName]
    split
    case h_1 hpending honly hform =>
      rw [if_pos (meetsName_iff.mpr ⟨hpending, honly, hform⟩), Option.bind_some]
      exact (Option.map_eq_bind (f := fun a => (a, arg, args))).symm
    case h_2 hne =>
      have hmeets : ¬r.meetsName arg := by
        intro h
        obtain ⟨hpending, honly, hform⟩ := meetsName_iff.mp h
        exact hne hpending honly hform
      rw [if_neg hmeets, Option.bind_assoc]
      exact congrArg _ (funext ih)

theorem splitAtName?_eq_some_iff :
    splitAtName? s args = some (a, name, rest) ↔
      ∃ q, start.untilName s args = some (q, name, rest) ∧ q.finish s = some a := by
  rw [splitAtName?, splitAtName?_go_eq, Option.bind_eq_some_iff]
  constructor
  case mp =>
    rintro ⟨⟨q, name', rest'⟩, hq, ha⟩
    obtain ⟨a', hfinish, heq⟩ := Option.map_eq_some_iff.mp ha
    cases heq
    exact ⟨q, hq, hfinish⟩
  case mpr =>
    rintro ⟨q, hq, hfinish⟩
    exact ⟨(q, name, rest), hq, Option.map_eq_some_iff.mpr ⟨a, hfinish, rfl⟩⟩

theorem WithJson.untilName (h : r.WithJson r') (args : List String) :
    Option.Rel (fun x x' => x.1.WithJson x'.1 ∧ x.2 = x'.2) (r.untilName s args)
      (r'.untilName s args) := by
  induction args generalizing r r' with
  | nil           => exact .none
  | cons arg args ih =>
    have hmeets : r'.meetsName arg = r.meetsName arg := by
      rw [meetsName, meetsName, h.pending, h.onlyOperands]
    rw [Reading.untilName, Reading.untilName, hmeets]
    split
    case isTrue  => exact .some ⟨h, rfl⟩
    case isFalse => exact rel_bind (h.next arg) fun _ _ hnext => ih hnext

theorem WithJson.exists_untilName (h : r.WithJson r')
    (hq' : r'.untilName s args = some (q', name, rest')) :
    ∃ q, r.untilName s args = some (q, name, rest') ∧ q.WithJson q' := by
  obtain ⟨⟨q, _⟩, hq, hwith, rfl⟩ := exists_left_of_rel (h.untilName args) hq'
  exact ⟨q, hq, hwith⟩

end Reading

end Arguments

end InfixAlgebra
