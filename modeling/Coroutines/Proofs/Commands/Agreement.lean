import Coroutines.Command.Execute
import Coroutines.Proofs.Commands.Exchanges
import Coroutines.Proofs.Lengths

/-!
# Checking a unit and running it

The command that checks a unit and the one that runs it read its file, load it and look for defects, each in
its own words.  They refuse the same files for the same reasons (`Command.check_agrees`), and a unit that is
refused has no effect.
-/

namespace Coroutines

namespace Command

variable {file : String} {p : Places} {o : RunOptions} {pretty : Bool} {es : List Exchange}
  {result : Except Abort Nat} {m : Nat}

/-- Some contents are a unit without defects. -/
def Passes (file : String) (contents : Contents) (unit : CompiledUnit) : Prop :=
  ∃ text, contents = .text text ∧ UnitFile.load text file = .ok unit ∧
    unit.validate (some Builtin.names) = []

/-! ### How the commands refuse -/

/-- A command that reports something and ends prints one line to the error output, if the report is not
too long for a text. -/
theorem runs_report {report : Option String} {n : Nat} :
    (do printReport report; pure n : Shell Nat).Runs es (.ok m) ↔
      m = n ∧ ∃ line, report = some line ∧ es = [.print .error (line ++ "\n")] := by
  cases report with
  | none =>
      have habort : (do printReport none; pure n : Shell Nat) = .done (.error .tooLarge) := rfl
      simp [habort]
  | some line =>
      have hprint : (do printReport (some line); pure n : Shell Nat) =
          .print .error (line ++ "\n") (.done (.ok n)) := rfl
      rw [hprint, Shell.runs_print]
      constructor
      · rintro ⟨rest, rfl, hrest⟩
        obtain ⟨rfl, hm⟩ := Shell.runs_done.mp hrest
        exact ⟨Except.ok.inj hm, line, rfl, rfl⟩
      · rintro ⟨rfl, line', h, rfl⟩
        cases h
        exact ⟨[], rfl, .done _⟩

theorem runs_refuse {code message : String} : (refuse pretty code message).Runs es (.ok m) ↔
    m = 4 ∧ ∃ line, (Diagnostic.plain code message).format? pretty none = some line ∧
      es = [.print .error (line ++ "\n")] := runs_report

theorem runs_reject {source : Option String} {ds : List Diagnostic} :
    (reject pretty source ds).Runs es (.ok m) ↔ m = 2 ∧ ∃ line,
      Diagnostic.formatAll? ds pretty source = some line ∧ es = [.print .error (line ++ "\n")] := runs_report

/-- A command that goes on from a report prints one line to the error output, if that is not too long for a
text; else it ends with an error. -/
theorem runs_printReport {α : Type} {line : String} {k : Unit → Shell α} {result : Except Abort α} :
    ((printReport (Text.bounded? line)).bind k).Runs es result ↔
      (Text.length line ≤ Text.maxLength ∧ ∃ rest, es = .print .error (line ++ "\n") :: rest ∧
        (k ()).Runs rest result) ∨
      (Text.maxLength < Text.length line ∧ es = [] ∧ result = .error .tooLarge) := by
  rcases Nat.lt_or_ge Text.maxLength (Text.length line) with hlong | hshort
  · have habort : (printReport none).bind k = .done (.error .tooLarge) := rfl
    rw [Text.bounded?_eq_none hlong, habort, Shell.runs_done]
    simp [hlong, Nat.not_le.mpr hlong]
  · have hprint : (printReport (some line)).bind k = .print .error (line ++ "\n") (k ()) := rfl
    rw [Text.bounded?_eq_some hshort, hprint, Shell.runs_print]
    simp [hshort, Nat.not_lt.mpr hshort]

/-- The report of a file that cannot be read is not too long for a text. -/
theorem format?_unread (pretty : Bool) : ∃ line, (Diagnostic.plain "E_IO"
    s!"Error reading file: {Contents.readError}").format? pretty none = some line := by
  cases pretty <;> exact ⟨_, rfl⟩

/-! ### What happens once a unit is run -/

theorem only_refuse (pretty : Bool) (code message : String) : (refuse pretty code message).Only (· ≠ 2) := by
  refine Shell.Only.bind (fun _ => ?_) _
  exact (by decide : (4 : Nat) ≠ 2)

theorem only_refuseInputs (pretty : Bool) (m : InputMismatch) : (refuseInputs pretty m).Only (· ≠ 2) := by
  unfold refuseInputs
  split
  · exact only_refuse ..
  · exact only_refuse ..

theorem only_conclude (pretty : Bool) (result : Except Abort UnitResult) :
    (conclude pretty (result.bind UnitResult.report)).Only (· ≠ 2) := by
  cases result with
  | error e => exact only_refuse ..
  | ok ended =>
      have hcode : ended.exitCode ≠ 2 := by cases ended <;> simp [UnitResult.exitCode]
      simp only [Except.bind, UnitResult.report]
      cases ended.errorText? with
      | none => exact only_refuse ..
      | some text => exact hcode

/-- A unit that is run does not end with the code of a unit with defects. -/
theorem only_runUnit (o : RunOptions) (unit : CompiledUnit) (inputs : Bindings Value)
    (maxSteps : Option Number) (trace : Option String) :
    (runUnit o unit inputs maxSteps trace).Only (· ≠ 2) := by
  unfold runUnit
  split
  · exact only_refuseInputs ..
  · exact Shell.Only.bind (fun _ => .bind (fun _ => only_conclude ..) _) _

theorem only_runChecked (p : Places) (o : RunOptions) (unit : CompiledUnit) :
    (runChecked p o unit).Only (· ≠ 2) := by
  refine Shell.Only.bind (fun settings => .bind (fun _ => ?_) _) _
  rcases limit o settings.config with message | maxSteps
  · exact only_refuse ..
  · rcases Inputs.parse o.inputs with e | inputs
    · exact only_refuse ..
    · refine Shell.Only.bind (fun opened => ?_) _
      cases opened with
      | false => exact only_refuse ..
      | true => exact only_runUnit ..

/-! ### What the commands do with a file -/

/-- How both commands go on from what the file holds: it cannot be read, or it is a unit with defects or none
at all, which ends both, or a unit that passes. -/
inductive Verdict (file : String) (o : RunOptions) (p : Places) (contents : Contents) :
    Shell Nat → Shell Nat → Prop
  | unread (h : ∀ text, contents ≠ .text text) :
    Verdict file o p contents (refuse o.pretty "E_IO" s!"Error reading file: {Contents.readError}")
      (refuse o.pretty "E_IO" s!"Error reading file: {Contents.readError}")
  | rejected (h : ∀ unit, ¬ Passes file contents unit) {text : String} (ht : contents = .text text)
      (source : Option String) (ds : List Diagnostic) :
    Verdict file o p contents (reject o.pretty source ds) (reject o.pretty source ds)
  | passed {unit : CompiledUnit} (h : Passes file contents unit) :
    Verdict file o p contents
      (do .printLine .output (if o.pretty then "No errors found." else "[]"); pure 0) (runChecked p o unit)

theorem exists_verdict (file : String) (o : RunOptions) (p : Places) (hfile : file ≠ "-") :
    ∃ checks runs : Contents → Shell Nat, check file o.pretty = .read file checks ∧
      run p file o = .read file runs ∧ ∀ contents, Verdict file o p contents (checks contents) (runs contents) := by
  refine ⟨_, _, rfl, if_neg hfile, fun contents => ?_⟩
  cases contents with
  | absent => exact .unread nofun
  | unreadable => exact .unread nofun
  | text text =>
      simp only [runContents]
      rcases hload : UnitFile.load text file with ds | unit
      · refine .rejected ?_ rfl none ds
        rintro unit ⟨text', ht, hu, -⟩
        cases ht
        rw [hload] at hu
        cases hu
      · simp only
        cases hdefects : unit.validate (some Builtin.names) with
        | nil => exact .passed ⟨text, rfl, hload, hdefects⟩
        | cons d ds =>
            refine .rejected ?_ rfl (some unit.source) (d :: ds)
            rintro unit' ⟨text', ht, hu, hnone⟩
            cases ht
            rw [hload] at hu
            cases hu
            rw [hdefects] at hnone
            cases hnone

namespace Verdict

variable {contents : Contents} {checked ran : Shell Nat}

theorem two_iff (h : Verdict file o p contents checked ran) :
    checked.Runs es (.ok 2) ↔ ran.Runs es (.ok 2) := by
  cases h with
  | unread => rfl
  | rejected => rfl
  | @passed unit h =>
      refine iff_of_false (fun hr => ?_) fun hr => Shell.Only.of_runs (only_runChecked p o unit) hr rfl
      obtain ⟨rest, -, hdone⟩ := Shell.runs_print.mp hr
      cases hdone

/-- The code of a unit with defects comes with one line on the error output. -/
theorem of_two (h : Verdict file o p contents checked ran) (hr : ran.Runs es (.ok 2)) :
    ∃ line, es = [.print .error line] ∧ ∀ unit, ¬ Passes file contents unit := by
  cases h with
  | unread =>
      obtain ⟨hcode, -⟩ := runs_refuse.mp hr
      cases hcode
  | rejected h =>
      obtain ⟨-, line, -, rfl⟩ := runs_reject.mp hr
      exact ⟨_, rfl, h⟩
  | @passed unit => exact (Shell.Only.of_runs (only_runChecked p o unit) hr rfl).elim

theorem four_iff (h : Verdict file o p contents checked ran) :
    checked.Runs es (.ok 4) ↔ ran.Runs es (.ok 4) ∧ ∀ text, contents ≠ .text text := by
  cases h with
  | unread h => exact (and_iff_left h).symm
  | rejected _ ht =>
      refine iff_of_false (fun hr => ?_) fun hr => hr.2 _ ht
      obtain ⟨hcode, -⟩ := runs_reject.mp hr
      cases hcode
  | passed h =>
      obtain ⟨text, ht, -⟩ := h
      refine iff_of_false (fun hr => ?_) fun hr => hr.2 text ht
      obtain ⟨rest, -, hdone⟩ := Shell.runs_print.mp hr
      cases hdone

/-- A file that cannot be read is reported. -/
theorem of_unread (h : Verdict file o p contents checked ran) (hc : ∀ text, contents ≠ .text text) :
    ∃ line, ran.Runs [.print .error line] (.ok 4) := by
  cases h with
  | unread =>
      obtain ⟨line, hline⟩ := format?_unread o.pretty
      exact ⟨_, runs_refuse.mpr ⟨rfl, line, hline, rfl⟩⟩
  | rejected _ ht => exact absurd ht (hc _)
  | passed h =>
      obtain ⟨text, ht, -⟩ := h
      exact absurd ht (hc text)

theorem zero_iff (h : Verdict file o p contents checked ran) : (∃ es, checked.Runs es (.ok 0)) ↔
    ∃ unit, Passes file contents unit ∧
      ∀ es result, ran.Runs es result ↔ (runChecked p o unit).Runs es result := by
  cases h with
  | unread h =>
      refine iff_of_false ?_ ?_
      · rintro ⟨es, hr⟩
        obtain ⟨hcode, -⟩ := runs_refuse.mp hr
        cases hcode
      · rintro ⟨unit, ⟨text, ht, -⟩, -⟩
        exact h text ht
  | rejected h =>
      refine iff_of_false ?_ fun ⟨unit, hp, _⟩ => h unit hp
      rintro ⟨es, hr⟩
      obtain ⟨hcode, -⟩ := runs_reject.mp hr
      cases hcode
  | passed h => exact iff_of_true ⟨_, .print (.done _)⟩ ⟨_, h, fun _ _ => .rfl⟩

end Verdict

/-! ### The commands agree -/

/-- **Checking a unit and running it agree**, for any file that is not the standard input, whatever the
surroundings answer.

* Both end with the code of a unit with defects after the same exchanges.  Then the unit does not pass, and
  nothing was done but to read the file and to print one line to the error output: no configuration was read,
  no trace file made, nothing printed by a script.
* The check ends with code 4 exactly if the file cannot be read, where the run ends the same way.
* The check ends with code 0 exactly if the run goes on to run a unit that passes. -/
theorem check_agrees (p : Places) (o : RunOptions) (hfile : file ≠ "-") :
    (∀ es, (check file o.pretty).Runs es (.ok 2) ↔ (run p file o).Runs es (.ok 2)) ∧
    (∀ es, (run p file o).Runs es (.ok 2) → ∃ contents line,
      es = [.read file contents, .print .error line] ∧ ∀ unit, ¬ Passes file contents unit) ∧
    (∀ es, (check file o.pretty).Runs es (.ok 4) ↔ (run p file o).Runs es (.ok 4) ∧
      ∃ contents rest, es = .read file contents :: rest ∧ ∀ text, contents ≠ .text text) ∧
    (∀ contents, (∀ text, contents ≠ .text text) → ∃ line,
      (run p file o).Runs [.read file contents, .print .error line] (.ok 4)) ∧
    (∀ contents, (∃ rest, (check file o.pretty).Runs (.read file contents :: rest) (.ok 0)) ↔
      ∃ unit, Passes file contents unit ∧ ∀ rest result,
        (run p file o).Runs (.read file contents :: rest) result ↔ (runChecked p o unit).Runs rest result) := by
  obtain ⟨checks, runs, hcheck, hrun, hverdict⟩ := exists_verdict file o p hfile
  rw [hcheck, hrun]
  refine ⟨fun es => ?defects, fun es h => ?nothingDone, fun es => ?unread, fun contents hc => ?unreadRun,
    fun contents => ?passes⟩
  case defects =>
    rw [Shell.runs_read, Shell.runs_read]
    exact exists_congr fun contents => exists_congr fun rest => and_congr_right fun _ =>
      (hverdict contents).two_iff
  case nothingDone =>
    obtain ⟨contents, rest, rfl, hr⟩ := Shell.runs_read.mp h
    obtain ⟨line, rfl, hfails⟩ := (hverdict contents).of_two hr
    exact ⟨contents, line, rfl, hfails⟩
  case unread =>
    rw [Shell.runs_read, Shell.runs_read]
    constructor
    · rintro ⟨contents, rest, rfl, hr⟩
      obtain ⟨hr, hc⟩ := (hverdict contents).four_iff.mp hr
      exact ⟨⟨contents, rest, rfl, hr⟩, contents, rest, rfl, hc⟩
    · rintro ⟨⟨contents, rest, rfl, hr⟩, _, _, he, hc⟩
      cases he
      exact ⟨contents, rest, rfl, (hverdict contents).four_iff.mpr ⟨hr, hc⟩⟩
  case unreadRun =>
    obtain ⟨line, hr⟩ := (hverdict contents).of_unread hc
    exact ⟨line, Shell.runs_read_cons.mpr hr⟩
  case passes =>
    simp only [Shell.runs_read_cons]
    exact (hverdict contents).zero_iff

/-- A text that is not JSON is refused by both commands in the same words. -/
theorem check_agrees_on_syntax : ∃ line,
    (check "unit.json" false).Runs [.read "unit.json" (.text ""), .print .error line] (.ok 2) ∧
      (run ⟨"", ""⟩ "unit.json" ⟨none, none, [], false⟩).Runs
        [.read "unit.json" (.text ""), .print .error line] (.ok 2) := by
  obtain ⟨hagrees, -⟩ := check_agrees ⟨"", ""⟩ ⟨none, none, [], false⟩ (by decide : "unit.json" ≠ "-")
  have hload : ∃ ds line, UnitFile.load "" "unit.json" = .error ds ∧
      Diagnostic.formatAll? ds false none = some line := ⟨_, _, rfl, rfl⟩
  obtain ⟨ds, line, hload, hline⟩ := hload
  have hcheck : (check "unit.json" false).Runs [.read "unit.json" (.text ""), .print .error (line ++ "\n")]
      (.ok 2) := by
    refine .read ?_
    simp only [hload]
    exact runs_reject.mpr ⟨rfl, line, hline, rfl⟩
  exact ⟨_, hcheck, (hagrees _).mp hcheck⟩

end Command

end Coroutines
