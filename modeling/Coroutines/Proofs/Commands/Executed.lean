import Coroutines.Proofs.Commands.Refusals
import Coroutines.Proofs.Commands.Traces
import Coroutines.Proofs.Faults.Units

/-!
# Carrying out a unit

A command carries out a unit whose declared inputs are those that are given (`CompiledUnit.Declares`).  It prints
what the script printed and writes its events, and the exit code says how the module ended (`Command.Ends`).
-/

namespace Coroutines

namespace CompiledUnit

variable {unit : CompiledUnit} {inputs : Bindings Value}

/-! ### Names of inputs -/

/-- The inputs have the names that the unit declares, in any order. -/
def Declares (unit : CompiledUnit) (inputs : Bindings Value) : Prop :=
  ∀ n, n ∈ inputs.names ↔ n ∈ unit.inputs.getD []

/-- The declared inputs that are missing, and those that are given without a declaration. -/
def mismatch (unit : CompiledUnit) (inputs : Bindings Value) : InputMismatch where
  missing := (unit.inputs.getD []).filter (· ∉ inputs.names)
  unexpected := inputs.indexFirst.names.filter (· ∉ unit.inputs.getD [])

theorem bindInputs_eq : unit.bindInputs inputs =
    if (unit.mismatch inputs).missing.isEmpty && (unit.mismatch inputs).unexpected.isEmpty then
      .ok inputs.indexFirst
    else .error (unit.mismatch inputs) := by
  have hmissing : (unit.inputs.getD []).filter (!inputs.indexFirst.has ·) = (unit.mismatch inputs).missing :=
    List.filter_congr fun n _ => by
      by_cases hn : n ∈ inputs.names
      · simp [hn, Bindings.has_iff.mpr (Bindings.mem_names_indexFirst.mpr hn)]
      · simp [hn, Bindings.has_eq_false (mt Bindings.mem_names_indexFirst.mp hn)]
  have hunexpected : inputs.indexFirst.names.filter (!(unit.inputs.getD []).contains ·) =
      (unit.mismatch inputs).unexpected := List.filter_congr fun n _ => by simp
  simp only [bindInputs, hmissing, hunexpected]

theorem declares_iff : unit.Declares inputs ↔
    ((unit.mismatch inputs).missing.isEmpty && (unit.mismatch inputs).unexpected.isEmpty) = true := by
  simp only [Declares, mismatch, Bool.and_eq_true, List.isEmpty_iff, List.filter_eq_nil_iff, decide_eq_true_eq,
    not_not, Bindings.mem_names_indexFirst]
  exact ⟨fun h => ⟨fun n => (h n).mpr, fun n => (h n).mp⟩, fun h n => ⟨h.2 n, h.1 n⟩⟩

theorem bindInputs_of_declares (h : unit.Declares inputs) : unit.bindInputs inputs = .ok inputs.indexFirst := by
  rw [bindInputs_eq, if_pos (declares_iff.mp h)]

theorem bindInputs_of_not_declares (h : ¬ unit.Declares inputs) :
    unit.bindInputs inputs = .error (unit.mismatch inputs) := by
  rw [bindInputs_eq, if_neg (mt declares_iff.mpr h)]

/-- The module of a unit, carried out with input values and a limit on its steps. -/
def executed (unit : CompiledUnit) (inputs : Bindings Value) (maxSteps : Option Number) :
    Except Abort Value × World Body Globals :=
  unit.runLimited maxSteps Program.bound Program.bound inputs.indexFirst

theorem run_of_declares (h : unit.Declares inputs) (maxSteps : Option Number) : unit.run inputs maxSteps =
    .ok (conclude (unit.executed inputs maxSteps).1, (unit.executed inputs maxSteps).2) := by
  rw [run_eq_runBounded, runBounded, bindInputs_of_declares h]
  rfl

theorem run_of_not_declares (h : ¬ unit.Declares inputs) (maxSteps : Option Number) :
    unit.run inputs maxSteps = .error (unit.mismatch inputs) := by
  rw [run_eq_runBounded, runBounded, bindInputs_of_not_declares h]
  rfl

end CompiledUnit

namespace Command

variable {o : RunOptions} {unit : CompiledUnit} {inputs : Bindings Value} {maxSteps : Option Number}
  {pretty : Bool} {es : List Exchange} {result : Except Abort Nat}

/-! ### The trace file -/

/-- Where the trace goes, if it is asked for: the empty name asks for none. -/
def RunOptions.tracePath (o : RunOptions) : Option String := o.trace.filter (· ≠ "")

/-- The trace file is made. -/
def opening (path : Option String) : List Exchange := path.toList.map (.create · true)

/-- The events of a run are written to the trace file, if it is asked for. -/
def recording (path : Option String) (runId : String) (timed : List (String × Event)) : List Exchange :=
  path.toList.flatMap fun path => .runId runId :: writing path runId timed

theorem runs_openTrace {path : Option String} {made failed : Shell Nat} :
    (do if ← openTrace path then made else failed : Shell Nat).Runs es result ↔
      (∃ rest, es = opening path ++ rest ∧ made.Runs rest result) ∨
      ∃ file rest, path = some file ∧ es = .create file false :: rest ∧ failed.Runs rest result := by
  cases path with
  | none =>
      refine ⟨fun h => .inl ⟨es, rfl, h⟩, ?_⟩
      rintro (⟨rest, rfl, h⟩ | ⟨_, _, ⟨⟩, -⟩)
      exact h
  | some file =>
      constructor
      · intro h
        cases h with
        | @create _ _ answer rest _ h =>
            cases answer with
            | true => exact .inl ⟨rest, rfl, h⟩
            | false => exact .inr ⟨file, rest, rfl, rfl, h⟩
      · rintro (⟨rest, rfl, h⟩ | ⟨_, rest, ⟨⟩, rfl, h⟩) <;> exact .create h

theorem runs_writeTrace {path : Option String} {events : List Event} {k : Unit → Shell Nat} :
    ((writeTrace path events).bind k).Runs es result ↔
      ∃ runId timed rest, timed.map Prod.snd = events ∧ es = recording path runId timed ++ rest ∧
        (k ()).Runs rest result := by
  cases path with
  | none =>
      have hevents : (events.map fun e => ("", e)).map Prod.snd = events := by
        rw [List.map_map]
        exact List.map_id events
      refine ⟨fun h => ⟨"", _, es, hevents, rfl, h⟩, ?_⟩
      rintro ⟨_, _, rest, -, rfl, h⟩
      exact h
  | some file =>
      have hrecording : ∀ runId timed, recording (some file) runId timed = .runId runId :: writing file runId timed :=
        fun _ _ => List.append_nil _
      constructor
      · intro h
        cases h with
        | @runId _ runId _ _ h =>
            obtain ⟨timed, rest, htimed, rfl, hrest⟩ := runs_writeEvents.mp h
            exact ⟨runId, timed, rest, htimed, by rw [hrecording]; rfl, hrest⟩
      · rintro ⟨runId, timed, rest, htimed, rfl, h⟩
        rw [hrecording]
        exact .runId (runs_writeEvents.mpr ⟨timed, rest, htimed, rfl, h⟩)

/-! ### Ends of a run -/

/-- How the command ends where the module did: with code 0 where it finished; with code 1 where an exception
escaped, whose traceback goes to the error stream of the script with a line break after it, unless that text is
too long; and else with the report of an error of the host. -/
inductive Ends (pretty : Bool) : Except Abort Value → List Exchange → Except Abort Nat → Prop
  | finished (v : Value) : Ends pretty (.ok v) [.print .scriptError ""] (.ok 0)
  | raised {r : Record} {text : String} (ht : r.render? = some text)
    (hfits : Text.length text < Text.maxLength) :
    Ends pretty (.error (.script r)) [.print .scriptError (text ++ "\n")] (.ok 1)
  | unwritten {r : Record} {es : List Exchange} {result : Except Abort Nat}
    (hlong : ∀ text, r.render? = some text → Text.maxLength ≤ Text.length text)
    (h : Refusal pretty "E_RUNTIME" Abort.tooLarge.message es result) :
    Ends pretty (.error (.script r)) es result
  | broken {e : Abort} {es : List Exchange} {result : Except Abort Nat} (he : ∀ r, e ≠ .script r)
    (h : Refusal pretty "E_RUNTIME" e.message es result) : Ends pretty (.error e) es result

theorem Ends.zero_iff {ended : Except Abort Value} (h : Ends pretty ended es result) :
    result = .ok 0 ↔ ∃ v, ended = .ok v := by
  cases h with
  | finished v => simp
  | raised => simp
  | unwritten _ h => simp [h.quiet]
  | broken _ h => simp [h.quiet]

theorem Ends.one_iff {ended : Except Abort Value} (h : Ends pretty ended es result) :
    result = .ok 1 ↔ ∃ r text, ended = .error (.script r) ∧ r.render? = some text ∧
      Text.length text < Text.maxLength := by
  cases h with
  | finished v => simp
  | raised ht hfits => exact iff_of_true rfl ⟨_, _, rfl, ht, hfits⟩
  | unwritten hlong h =>
      refine iff_of_false h.quiet.2.1 ?_
      rintro ⟨r, text, he, ht, hfits⟩
      cases he
      exact Nat.not_le.mpr hfits (hlong text ht)
  | broken he h => simp [h.quiet, he]

/-- The traceback of an exception is reported with a line break after it, or the text is too long for that. -/
theorem report_raised (r : Record) :
    (∃ text, r.render? = some text ∧ Text.length text < Text.maxLength ∧
      (UnitResult.raised r).report = .ok (1, text ++ "\n")) ∨
    (∀ text, r.render? = some text → Text.maxLength ≤ Text.length text) ∧
      (UnitResult.raised r).report = .error .tooLarge := by
  have hbreak : Text.length "\n" = 1 := by decide
  simp only [UnitResult.report, UnitResult.errorText?]
  cases r.render? with
  | none => exact .inr ⟨fun _ h => (by cases h), rfl⟩
  | some text =>
      rw [Option.bind_some, Text.append?, hbreak]
      by_cases hfits : Text.length text < Text.maxLength
      · rw [if_neg (by omega)]
        exact .inl ⟨text, rfl, hfits, rfl⟩
      · rw [if_pos (by omega)]
        refine .inr ⟨fun _ h => ?_, rfl⟩
        cases h
        exact Nat.not_lt.mp hfits

theorem runs_conclude {ended : Except Abort Value} :
    (conclude pretty ((CompiledUnit.conclude ended).bind UnitResult.report)).Runs es result ↔
      Ends pretty ended es result := by
  have hbroken : ∀ {e : Abort}, (∀ r, e ≠ .script r) →
      ((fail pretty e).Runs es result ↔ Ends pretty (.error e) es result) := by
    intro e he
    rw [fail, runs_refuse_iff]
    refine ⟨.broken he, fun h => ?_⟩
    cases h with
    | raised => exact absurd rfl (he _)
    | unwritten => exact absurd rfl (he _)
    | broken _ h => exact h
  have hexit : ∀ {code : Nat} {text : String}, (conclude pretty (.ok (code, text))).Runs es result ↔
      es = [.print .scriptError text] ∧ result = .ok code := by
    intro code text
    refine Shell.runs_print.trans ⟨?_, ?_⟩
    · rintro ⟨rest, rfl, h⟩
      obtain ⟨rfl, rfl⟩ := Shell.runs_done.mp h
      exact ⟨rfl, rfl⟩
    · rintro ⟨rfl, rfl⟩
      exact ⟨[], rfl, .done _⟩
  rcases ended with e | v
  · cases e with
    | script r =>
        simp only [CompiledUnit.conclude, Except.bind]
        rcases report_raised r with ⟨text, ht, hfits, hreport⟩ | ⟨hlong, hreport⟩
        · rw [hreport]
          refine hexit.trans ⟨?_, fun h => ?_⟩
          · rintro ⟨rfl, rfl⟩
            exact .raised ht hfits
          · cases h with
            | raised ht' =>
                cases ht.symm.trans ht'
                exact ⟨rfl, rfl⟩
            | unwritten hlong => exact absurd hfits (Nat.not_lt.mpr (hlong text ht))
            | broken he => exact absurd rfl (he r)
        · rw [hreport]
          refine runs_refuse_iff.trans ⟨.unwritten hlong, fun h => ?_⟩
          cases h with
          | raised ht hfits => exact absurd hfits (Nat.not_lt.mpr (hlong _ ht))
          | unwritten _ h => exact h
          | broken he => exact absurd rfl (he r)
    | _ =>
        refine hbroken fun r h => ?_
        cases h
  · refine hexit.trans ⟨?_, ?_⟩
    · rintro ⟨rfl, rfl⟩
      exact .finished v
    · rintro ⟨⟩
      exact ⟨rfl, rfl⟩

/-- What a run exchanges before it ends: what the script printed, and its events. -/
def told (path : Option String) (runId : String) (timed : List (String × Event)) (w : World Body Globals) :
    List Exchange :=
  .print .scriptOutput w.shared.output :: recording path runId timed

theorem runs_runUnit {path : Option String} (h : unit.Declares inputs) :
    (runUnit o unit inputs maxSteps path).Runs es result ↔ ∃ runId timed rest,
      timed.map Prod.snd = (unit.executed inputs maxSteps).2.trace.toList.map Prod.snd ∧
        es = told path runId timed (unit.executed inputs maxSteps).2 ++ rest ∧
        Ends o.pretty (unit.executed inputs maxSteps).1 rest result := by
  have hprint : runUnit o unit inputs maxSteps path =
      .print .scriptOutput (unit.executed inputs maxSteps).2.shared.output
        ((writeTrace path ((unit.executed inputs maxSteps).2.trace.toList.map Prod.snd)).bind fun _ =>
          conclude o.pretty ((CompiledUnit.conclude (unit.executed inputs maxSteps).1).bind UnitResult.report)) := by
    rw [runUnit, CompiledUnit.run_of_declares h]
    rfl
  rw [hprint, Shell.runs_print]
  constructor
  · rintro ⟨rest, rfl, h⟩
    obtain ⟨runId, timed, last, htimed, rfl, hlast⟩ := runs_writeTrace.mp h
    exact ⟨runId, timed, last, htimed, rfl, runs_conclude.mp hlast⟩
  · rintro ⟨runId, timed, rest, htimed, rfl, h⟩
    exact ⟨_, rfl, runs_writeTrace.mpr ⟨runId, timed, rest, htimed, rfl, runs_conclude.mpr h⟩⟩

theorem runUnit_of_not_declares {path : Option String} (h : ¬ unit.Declares inputs) :
    runUnit o unit inputs maxSteps path = refuseInputs o.pretty (unit.mismatch inputs) := by
  rw [runUnit, CompiledUnit.run_of_not_declares h]

end Command

end Coroutines
