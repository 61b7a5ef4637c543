import InfixAlgebra.Proofs.CommandLine.Asked

namespace InfixAlgebra

namespace Command

open Arguments

variable {α : Type} [Scalar α] [NumberText α] {name : String} {args args' : List String}
  {command : Command α} {a' : Arguments}

-- No command looks at how its outcome is to be reported.
theorem usage?_json {usage : Usage α} (h : usage? name = some usage) :
    (∃ os, usage.signature.options = .json :: os) ∧
      ∀ a a' : Arguments, a.WithJson a' → usage.command? a' = usage.command? a := by
  unfold usage? at h
  split at h <;> cases h
  all_goals
    refine ⟨⟨_, rfl⟩, fun a a' hwith => ?_⟩
    simp [hwith.operands, hwith.others, hwith.value?_eq]

theorem parse?_of_addsJson (h : AddsJson args args')
    (hparse : parse? name args' = some (command, a')) :
    ∃ a, parse? name args = some (command, a) ∧ a.WithJson a' := by
  obtain ⟨usage, husage, hparse⟩ := Option.bind_eq_some_iff.mp hparse
  obtain ⟨b', hb', hparse⟩ := Option.bind_eq_some_iff.mp hparse
  obtain ⟨c, hc, heq⟩ := Option.bind_eq_some_iff.mp hparse
  cases heq
  obtain ⟨⟨os, hos⟩, hignores⟩ := usage?_json husage
  obtain ⟨a, ha, hwith⟩ := h.parse? hos hb'
  refine ⟨a, ?_, hwith⟩
  simp [parse?, husage, ha, ← hignores a a' hwith, hc]

end Command

namespace Invocation

open Arguments

variable {α : Type} {args args' : List String} {inv inv' : Invocation α} {command : Command α}
  {outer outer' inner inner' : Arguments}

def asText (inv : Invocation α) : Invocation α :=
  { inv with asJson := false }

def asData (inv : Invocation α) : Invocation α :=
  { inv with asJson := true }

def ofParts? (outer : Arguments) (command : Command α) (inner : Arguments) :
    Option (Invocation α) := do
  let outerDepth ← (outer.values .maxDepth).mapM Operand.nat?
  let innerDepth ← (inner.values .maxDepth).mapM Operand.nat?
  return {
    command    := command
    asJson     := outer.has .json || inner.has .json
    configFile := inner.value? .config <|> outer.value? .config
    maxDepth   := innerDepth.getLast? <|> outerDepth.getLast? }

theorem asJson_of_ofParts? (h : ofParts? outer command inner = some inv) :
    inv.asJson = (outer.has .json || inner.has .json) := by
  obtain ⟨_, _, h⟩ := Option.bind_eq_some_iff.mp h
  obtain ⟨_, _, h⟩ := Option.bind_eq_some_iff.mp h
  cases h
  rfl

theorem ofParts?_json (houter : ∀ o, o ≠ .json → outer'.values o = outer.values o)
    (hinner : ∀ o, o ≠ .json → inner'.values o = inner.values o)
    (hjson : (outer'.has .json || inner'.has .json) = true) :
    ofParts? outer' command inner' = (ofParts? outer command inner).map asData := by
  simp only [ofParts?, value?, houter .maxDepth (by decide), hinner .maxDepth (by decide),
    houter .config (by decide), hinner .config (by decide), hjson]
  cases (outer.values .maxDepth).mapM Operand.nat? with
  | none   => rfl
  | some _ => cases (inner.values .maxDepth).mapM Operand.nat? <;> rfl

variable [Scalar α] [NumberText α]

theorem parse?_eq_some_iff :
    parse? args = some inv ↔ ∃ outer name rest command inner,
      splitAtName? (Command.signature [] 0) args = some (outer, name, rest) ∧
        Command.parse? name rest = some (command, inner) ∧
        ofParts? outer command inner = some inv := by
  constructor
  case mp =>
    intro h
    obtain ⟨⟨outer, name, rest⟩, hsplit, h⟩ := Option.bind_eq_some_iff.mp h
    obtain ⟨⟨command, inner⟩, hcommand, h⟩ := Option.bind_eq_some_iff.mp h
    exact ⟨outer, name, rest, command, inner, hsplit, hcommand, h⟩
  case mpr =>
    rintro ⟨outer, name, rest, command, inner, hsplit, hcommand, h⟩
    rw [parse?, hsplit]
    simp only [Option.bind_eq_bind, Option.bind_some, hcommand]
    exact h

-- One more argument that asks for data changes nothing but the form of the outcome.
theorem parse?_of_addsJson (h : AddsJson args args') (hparse : parse? args' = some inv') :
    ∃ inv, parse? args = some inv ∧ inv' = asData inv := by
  simp only [parse?_eq_some_iff] at hparse ⊢
  obtain ⟨outer', name, rest', command, inner', hsplit, hcommand, hparts⟩ := hparse
  rcases h.splitAtName? rfl hsplit with ⟨outer, hsplit, hwith⟩ | ⟨rest, hsplit, hrest⟩
  case inl =>
    rw [ofParts?_json hwith.others (fun _ _ => rfl) (by simp [hwith.has_json])] at hparts
    obtain ⟨inv, hinv, heq⟩ := Option.map_eq_some_iff.mp hparts
    exact ⟨inv, ⟨outer, name, rest', command, inner', hsplit, hcommand, hinv⟩, heq.symm⟩
  case inr =>
    obtain ⟨inner, hcommand, hwith⟩ := Command.parse?_of_addsJson hrest hcommand
    rw [ofParts?_json (fun _ _ => rfl) hwith.others (by simp [hwith.has_json])] at hparts
    obtain ⟨inv, hinv, heq⟩ := Option.map_eq_some_iff.mp hparts
    exact ⟨inv, ⟨outer', name, rest, command, inner, hsplit, hcommand, hinv⟩, heq.symm⟩

theorem parse?_json {arg : String} (harg : arg = "--json" ∨ arg = "-j")
    (hparse : parse? args = some inv) (htext : inv.asJson = false) :
    parse? (arg :: args) = some inv.asData := by
  simp only [parse?_eq_some_iff] at hparse ⊢
  obtain ⟨outer, name, rest, command, inner, hsplit, hcommand, hparts⟩ := hparse
  rw [asJson_of_ofParts? hparts, Bool.or_eq_false_iff] at htext
  obtain ⟨outer', hsplit', hwith⟩ := splitAtName?_json rfl harg hsplit htext.1
  refine ⟨outer', name, rest, command, inner, hsplit', hcommand, ?_⟩
  have hjson : (outer'.has .json || inner.has .json) = true := by simp [hwith.has_json]
  rw [ofParts?_json hwith.others (fun _ _ => rfl) hjson, hparts, Option.map_some]

-- Whoever asks for data does so with an argument that can be left out.
theorem exists_addsJson (hparse : parse? args = some inv) (hdata : inv.asJson = true) :
    ∃ args', AddsJson args' args := by
  obtain ⟨outer, name, rest, command, inner, hsplit, hcommand, hparts⟩ :=
    parse?_eq_some_iff.mp hparse
  rw [asJson_of_ofParts? hparts, Bool.or_eq_true] at hdata
  refine exists_addsJson_of_splitAtName? hsplit (hdata.imp id fun hinner => ?_)
  obtain ⟨usage, -, hparse⟩ := Option.bind_eq_some_iff.mp hcommand
  obtain ⟨a, ha, hparse⟩ := Option.bind_eq_some_iff.mp hparse
  obtain ⟨_, _, heq⟩ := Option.bind_eq_some_iff.mp hparse
  cases heq
  exact exists_addsJson_of_parse? ha hinner

theorem exists_parse?_asText (hparse : parse? args = some inv) :
    ∃ args', Relation.ReflTransGen AddsJson args' args ∧ parse? args' = some inv.asText := by
  induction hextent : extent args using Nat.strong_induction_on generalizing args inv with
  | h n ih =>
    subst hextent
    cases hform : inv.asJson with
    | false =>
      have htext : inv.asText = inv := by rw [asText, ← hform]
      exact ⟨args, .refl, htext ▸ hparse⟩
    | true  =>
      obtain ⟨args₁, hadds⟩ := exists_addsJson hparse hform
      obtain ⟨inv₁, hparse₁, rfl⟩ := parse?_of_addsJson hadds hparse
      obtain ⟨args', hreach, hparse'⟩ := ih _ hadds.extent_lt hparse₁ rfl
      exact ⟨args', hreach.tail hadds, hparse'⟩

theorem exists_parse?_asData (hparse : parse? args = some inv) :
    ∃ args', Relation.ReflTransGen AddsJson args args' ∧ parse? args' = some inv.asData := by
  cases hform : inv.asJson with
  | false => exact ⟨_, .single (.alone args (.inl rfl)), parse?_json (.inl rfl) hparse hform⟩
  | true  =>
    have hdata : inv.asData = inv := by rw [asData, ← hform]
    exact ⟨args, .refl, hdata ▸ hparse⟩

-- An invocation can be asked for in both forms by arguments that differ in nothing but this, and
-- arguments that differ in nothing but this ask for no other invocation.
structure HasBothForms (args : List String) (inv : Invocation α) : Prop where
  text    : ∃ args', Relation.ReflTransGen AddsJson args' args ∧ parse? args' = some inv.asText
  data    : ∃ args', Relation.ReflTransGen AddsJson args args' ∧ parse? args' = some inv.asData
  added   : ∀ args' inv', AddsJson args args' → parse? args' = some inv' → inv' = inv.asData
  removed : ∀ args', AddsJson args' args → ∃ inv', parse? args' = some inv' ∧ inv = inv'.asData

theorem hasBothForms (hparse : parse? args = some inv) : HasBothForms args inv where
  text := exists_parse?_asText hparse
  data := exists_parse?_asData hparse
  removed args' hadds := parse?_of_addsJson hadds hparse
  added args' inv' hadds hparse' := by
    obtain ⟨inv₁, hparse₁, rfl⟩ := parse?_of_addsJson hadds hparse'
    rw [hparse] at hparse₁
    cases hparse₁
    rfl

end Invocation

end InfixAlgebra
