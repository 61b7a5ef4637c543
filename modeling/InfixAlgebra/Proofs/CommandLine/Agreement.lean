import InfixAlgebra.CommandLine.Outcome
import InfixAlgebra.Proofs.CommandLine.Requests
import InfixAlgebra.Proofs.Interchange.Results
import InfixAlgebra.Proofs.LinearSystem.Factorization

namespace InfixAlgebra

namespace Envelope

variable {e : Envelope}

def ofText? (text : String) : Option Envelope := do
  match ← (← Json.parse? text).fields? with
  | [("success", .bool success), ("message", message), ("data", data)] =>
    return ⟨success, ← message.string?, data⟩
  | _ => none

theorem ofText?_line (h : e.data.WellSpelled) : ofText? (e.render ++ "\n") = some e := by
  have hfields : e.toJson.fields? =
      some [("success", .bool e.success), ("message", .ofText e.message), ("data", e.data)] :=
    rfl
  simp [ofText?, render, Json.parse?_pretty_line (wellSpelled_toJson h), hfields,
    Json.string?_ofText]

theorem render_ne_empty (e : Envelope) : e.render ++ "\n" ≠ "" := by
  simp

end Envelope

namespace Command

variable {config : Config Float} {command : Command Float} {answer : Answer}

theorem wellSpelled_of_run (h : command.run config = .ok answer) : answer.data.WellSpelled := by
  have hvalue {x : Except (Error Float) (Value Float)} (h : Answer.ofValue <$> x = .ok answer) :
      answer.data.WellSpelled := by
    obtain ⟨v, -, rfl⟩ := exists_of_map_eq_ok h
    exact v.wellSpelled_toJson
  have htext {β : Type} {x : Except (Error Float) β} {render : β → String}
      (h : (x >>= fun t => pure (Answer.ofText (render t))) = .ok answer) :
      answer.data.WellSpelled := by
    obtain ⟨t, -, h⟩ := exists_of_bind_eq_ok h
    cases h
    exact .string (render t)
  have hsolution {x : Except (Error Float) (Solution Float)}
      (h : Answer.ofSolution <$> x = .ok answer) : answer.data.WellSpelled := by
    obtain ⟨s, -, rfl⟩ := exists_of_map_eq_ok h
    exact s.wellSpelled_toJson
  cases command with
  | evaluate => exact hvalue h
  | calculate =>
    obtain ⟨x, -, rfl⟩ := exists_of_map_eq_ok h
    exact Json.wellSpelled_ofPlainNumber x
  | parse         => exact htext h
  | differentiate => exact htext h
  | simplify      => exact htext h
  | rationalize   => exact htext h
  | matrix op     => cases op <;> exact hvalue h
  | solve =>
    obtain ⟨xs, -, h⟩ := exists_of_bind_eq_ok h
    exact hsolution h
  | system        => exact hsolution h

end Command

namespace Config

variable {α : Type} [Scalar α] {c : Config α} {e : Error α}

theorem validate_eq_error (h : c.validate = .error e) : ∃ fault, e = .config fault := by
  unfold validate at h
  split at h
  case isTrue => cases h; exact ⟨_, rfl⟩
  split at h
  case isTrue => cases h; exact ⟨_, rfl⟩
  split at h
  case isTrue  => cases h
  case isFalse => cases h; exact ⟨_, rfl⟩

variable [NumberText α]

theorem parse_eq_error {text : String} (h : parse text = .error e) :
    ∃ fault, e = .config fault := by
  unfold parse ofJson at h
  split at h
  case h_1 => cases h; exact ⟨_, rfl⟩
  case h_2 =>
    rcases exists_of_bind_eq_error h with h | ⟨_, _, h⟩
    · exact validate_eq_error h
    · cases h

end Config

namespace Invocation

variable {α : Type} [Scalar α] [NumberText α] {inv : Invocation α} {e : Error α}
  {read : String → Option String}

theorem config_eq_error (h : inv.config read = .error e) : ∃ fault, e = .config fault := by
  have hoverride {c c' : Config α} (h : (do c.validate; return c') = .error e) :
      ∃ fault, e = .config fault := by
    rcases exists_of_bind_eq_error h with h | ⟨_, _, h⟩
    · exact Config.validate_eq_error h
    · cases h
  simp only [config] at h
  split at h
  case h_1 => exact hoverride h
  case h_2 =>
    split at h
    case h_1 =>
      rcases exists_of_bind_eq_error h with h | ⟨_, _, h⟩
      · exact Config.parse_eq_error h
      · exact hoverride h
    case h_2 => cases h; exact ⟨_, rfl⟩

end Invocation

structure Outcome.Agree (text data : Outcome) (result : Except (Error Float) Answer)
    (e : Envelope) : Prop where
  status  : text.status = data.status
  success : e.success = true ↔ data.status = 0
  output  : data.output = e.render ++ "\n"
  read    : Envelope.ofText? data.output = some e
  silent  : data.complaint = ""
  ofOk    : ∀ answer, result = .ok answer → e.success = true ∧ e.data = answer.data ∧
    text.output = e.message ++ ": " ++ answer.text ++ "\n" ∧ text.complaint = ""
  ofError : ∀ error, result = .error error → e.success = false ∧ e.data = .null ∧
    text.output = "" ∧ text.complaint = e.message ++ "\n"

namespace Outcome

theorem agree (label : String) {result : Except (Error Float) Answer}
    (h : ∀ answer, result = .ok answer → answer.data.WellSpelled) :
    Agree (ofText label result) (ofEnvelope (.ofResult label (Answer.data <$> result))) result
      (.ofResult label (Answer.data <$> result)) := by
  cases result with
  | ok answer =>
    exact {
      status  := rfl
      success := by simp [ofEnvelope, Envelope.ofResult]
      output  := rfl
      read    := Envelope.ofText?_line (h answer rfl)
      silent  := rfl
      ofOk    := by rintro _ ⟨⟩; exact ⟨rfl, rfl, rfl, rfl⟩
      ofError := nofun }
  | error e =>
    exact {
      status  := rfl
      success := by simp [ofEnvelope, Envelope.ofResult]
      output  := rfl
      read    := Envelope.ofText?_line .null
      silent  := rfl
      ofOk    := nofun
      ofError := by rintro _ ⟨⟩; exact ⟨rfl, rfl, rfl, rfl⟩ }

end Outcome

namespace Invocation

variable {args : List String} {inv : Invocation Float} {config : Config Float}
  {error : Error Float} {read : String → Option String}

theorem run_of_error (h : inv.config read = .error error) : inv.run read = .failure error := by
  rw [run, h]

theorem run_asText (h : inv.config read = .ok config) :
    inv.asText.run read = .ofText inv.command.label (inv.command.run config) := by
  have hconfig : inv.asText.config read = .ok config := h
  rw [run, hconfig]
  rfl

theorem run_asData (h : inv.config read = .ok config) :
    inv.asData.run read =
      .ofEnvelope (.ofResult inv.command.label (Answer.data <$> inv.command.run config)) := by
  have hconfig : inv.asData.config read = .ok config := h
  rw [run, hconfig]
  rfl

-- The outcomes as text and as data of what a command line asks for. Log lines are no part of them.
-- If there is no configuration, nothing is reported as data, and the failure is a text in either
-- form.
theorem text_and_data_agree (hparse : parse? args = some inv) (read : String → Option String) :
    HasBothForms args inv ∧
      (inv.asText.run read).status = (inv.asData.run read).status ∧
      (∀ config, inv.config read = .ok config →
        ∃ e, Outcome.Agree (inv.asText.run read) (inv.asData.run read)
          (inv.command.run config) e) ∧
      ∀ error, inv.config read = .error error →
        (∃ fault, error = .config fault) ∧ inv.asText.run read = .failure error ∧
          inv.asData.run read = .failure error := by
  have hok (config : Config Float) (h : inv.config read = .ok config) :
      ∃ e, Outcome.Agree (inv.asText.run read) (inv.asData.run read)
        (inv.command.run config) e := by
    rw [run_asText h, run_asData h]
    exact ⟨_, Outcome.agree _ fun _ => Command.wellSpelled_of_run⟩
  have herror (error : Error Float) (h : inv.config read = .error error) :
      inv.asText.run read = .failure error ∧ inv.asData.run read = .failure error :=
    ⟨run_of_error h, run_of_error h⟩
  refine ⟨hasBothForms hparse, ?_, hok, fun error h => ⟨config_eq_error h, herror error h⟩⟩
  cases hconfig : inv.config read with
  | ok config   =>
    obtain ⟨e, hagree⟩ := hok config hconfig
    exact hagree.status
  | error error =>
    obtain ⟨htext, hdata⟩ := herror error hconfig
    rw [htext, hdata]

-- A result and a failure, both asked for as data.
theorem text_and_data_agree_of_variable :
    (∃ (inv : Invocation Float) (e : Envelope), parse? ["parse", "x+1", "-j"] = some inv ∧
      HasBothForms ["parse", "x+1", "-j"] inv ∧
      Outcome.Agree (inv.asText.run fun _ => none) (inv.asData.run fun _ => none)
        (.ok (.ofText "x + 1")) e ∧ e.success = true) ∧
    ∃ (inv : Invocation Float) (e : Envelope), parse? ["eval", "x+1", "-j"] = some inv ∧
      HasBothForms ["eval", "x+1", "-j"] inv ∧
      Outcome.Agree (inv.asText.run fun _ => none) (inv.asData.run fun _ => none)
        (.error (.unbound "x")) e ∧ e.success = false := by
  have hparse : parse? ["parse", "x+1", "-j"] =
      some (⟨.parse "x+1", true, none, none⟩ : Invocation Float) := by
    cbv
  have heval : parse? ["eval", "x+1", "-j"] =
      some (⟨.evaluate "x+1" [], true, none, none⟩ : Invocation Float) := by
    cbv
  obtain ⟨hforms, -, hok, -⟩ := text_and_data_agree hparse fun _ => none
  obtain ⟨hforms', -, hok', -⟩ := text_and_data_agree heval fun _ => none
  obtain ⟨e, hagree⟩ := hok .standard rfl
  obtain ⟨e', hagree'⟩ := hok' .standard rfl
  have hrun : (Command.parse "x+1" : Command Float).run .standard = .ok (.ofText "x + 1") := rfl
  have hrun' : (Command.evaluate "x+1" [] : Command Float).run .standard =
    .error (.unbound "x") := rfl
  rw [hrun] at hagree
  rw [hrun'] at hagree'
  exact ⟨⟨_, e, hparse, hforms, hagree, (hagree.ofOk _ rfl).1⟩,
    ⟨_, e', heval, hforms', hagree', (hagree'.ofError _ rfl).1⟩⟩

-- Without a configuration there is no envelope.
theorem no_envelope_of_zero_depth :
    ∃ inv : Invocation Float, parse? ["parse", "x", "--max-depth", "0"] = some inv ∧
      parse? ["parse", "x", "--max-depth", "0", "--json"] = some inv.asData ∧
      ∀ read, inv.asData.run read =
          ⟨1, "", "ConfigError: Invalid configuration: max_depth must be at least 1\n"⟩ ∧
        ∀ e : Envelope, (inv.asData.run read).output ≠ e.render ++ "\n" := by
  refine ⟨⟨.parse "x", false, none, some 0⟩, by cbv, by cbv, fun read => ⟨rfl, fun e h => ?_⟩⟩
  exact Envelope.render_ne_empty e h.symm

end Invocation

end InfixAlgebra
