import Coroutines.Proofs.Commands.Configurations
import Coroutines.Proofs.Commands.Executed
import Coroutines.Proofs.Format.Written

/-!
# Starting a unit

Before a unit runs, the command checks the limit on its steps, reads the inputs, makes the trace file and compares
the names of the inputs with those that the unit declares, in this order.  The first check that fails is reported
(`Command.Fails`), and the module is carried out only where all of them pass (`Command.run_gated`).
-/

namespace Coroutines

theorem Settings.Finds.quiet {files : List (ConfigSource × String)} {es : List Exchange} {s : Settings}
    (h : Finds files es s) : ∀ e ∈ es, ¬ e.OfScript := by
  induction h with
  | nothing => exact nofun
  | holds => simp [Exchange.OfScript]
  | absent _ ih => simpa [Exchange.OfScript] using ih
  | skipped _ _ ih => simpa [Exchange.OfScript] using ih

namespace Command

variable {p : Places} {o : RunOptions} {unit : CompiledUnit} {config : Config} {inputs : Bindings Value}
  {maxSteps : Option Number} {pretty : Bool} {es : List Exchange} {result : Except Abort Nat}

/-! ### The checks before a run -/

/-- What the command says of a trace file that cannot be made. -/
def openMessage : String := s!"Error opening trace file: {Contents.readError}"

/-- The first check that fails, with what was exchanged for it, and the code and the message of its report. -/
inductive Fails (o : RunOptions) (unit : CompiledUnit) (config : Config) : List Exchange → String → String → Prop
  | limit {text : String} (ht : o.maxSteps = some text) (hn : ¬ (Number.ofNumeral text).IsLimit) :
    Fails o unit config [] "E_USAGE" (limitMessage text)
  | inputs {maxSteps : Option Number} {e : InputError} (hl : Granted o config maxSteps)
    (he : Inputs.parse o.inputs = .error e) : Fails o unit config [] "E_USAGE" e.message
  | trace {maxSteps : Option Number} {inputs : Bindings Value} {path : String} (hl : Granted o config maxSteps)
    (hi : Inputs.parse o.inputs = .ok inputs) (ht : o.tracePath = some path) :
    Fails o unit config [.create path false] "E_IO" openMessage
  | names {maxSteps : Option Number} {inputs : Bindings Value} (hl : Granted o config maxSteps)
    (hi : Inputs.parse o.inputs = .ok inputs) (hn : ¬ unit.Declares inputs)
    (hfits : Text.length (unit.mismatch inputs).message ≤ Text.maxLength) :
    Fails o unit config (opening o.tracePath) "E_INPUT" (unit.mismatch inputs).message
  | manyNames {maxSteps : Option Number} {inputs : Bindings Value} (hl : Granted o config maxSteps)
    (hi : Inputs.parse o.inputs = .ok inputs) (hn : ¬ unit.Declares inputs)
    (hlong : Text.maxLength < Text.length (unit.mismatch inputs).message) :
    Fails o unit config (opening o.tracePath) "E_RUNTIME" Abort.tooLarge.message

theorem Fails.quiet {code message : String} (h : Fails o unit config es code message) :
    ∀ e ∈ es, ¬ e.OfScript := by
  cases h with
  | limit => exact nofun
  | inputs => exact nofun
  | trace => simp [Exchange.OfScript]
  | names => simp [opening, Exchange.OfScript]
  | manyNames => simp [opening, Exchange.OfScript]

theorem runs_refuseInputs {pretty : Bool} {m : InputMismatch} : (refuseInputs pretty m).Runs es result ↔
    (Text.length m.message ≤ Text.maxLength ∧ Refusal pretty "E_INPUT" m.message es result) ∨
      (Text.maxLength < Text.length m.message ∧ Refusal pretty "E_RUNTIME" Abort.tooLarge.message es result) := by
  rcases Nat.lt_or_ge Text.maxLength (Text.length m.message) with hlong | hfits
  · rw [refuseInputs, InputMismatch.message?, Text.bounded?_eq_none hlong]
    exact runs_refuse_iff.trans
      ⟨fun h => .inr ⟨hlong, h⟩, fun h => h.elim (fun h => absurd h.1 (Nat.not_le.mpr hlong)) And.right⟩
  · rw [refuseInputs, InputMismatch.message?, Text.bounded?_eq_some hfits]
    exact runs_refuse_iff.trans
      ⟨fun h => .inl ⟨hfits, h⟩, fun h => h.elim And.right fun h => absurd h.1 (Nat.not_lt.mpr hfits)⟩

/-- All checks pass that need no answer, with these inputs and this limit on the steps. -/
structure Admits (o : RunOptions) (unit : CompiledUnit) (config : Config) (inputs : Bindings Value)
    (maxSteps : Option Number) : Prop where
  granted : Granted o config maxSteps
  parsed : Inputs.parse o.inputs = .ok inputs
  declared : unit.Declares inputs

/-- How the command goes on with a configuration: the first check that fails is reported, or the module is carried
out, after the trace file was made. -/
inductive Goes (o : RunOptions) (unit : CompiledUnit) (config : Config) : List Exchange → Except Abort Nat → Prop
  | refused {tried es : List Exchange} {code message : String} {result : Except Abort Nat}
    (hfails : Fails o unit config tried code message) (h : Refusal o.pretty code message es result) :
    Goes o unit config (tried ++ es) result
  | ran {inputs : Bindings Value} {maxSteps : Option Number} {es : List Exchange} {result : Except Abort Nat}
    (hadmits : Admits o unit config inputs maxSteps) (runId : String) (timed : List (String × Event))
    (htimed : timed.map Prod.snd = (unit.executed inputs maxSteps).2.trace.toList.map Prod.snd)
    (h : Ends o.pretty (unit.executed inputs maxSteps).1 es result) :
    Goes o unit config
      (opening o.tracePath ++ (told o.tracePath runId timed (unit.executed inputs maxSteps).2 ++ es)) result

/-- The checks and the run, with a configuration. -/
def proceed (o : RunOptions) (unit : CompiledUnit) (config : Config) : Shell Nat :=
  match limit o config, Inputs.parse o.inputs with
  | .error message, _ => refuse o.pretty "E_USAGE" message
  | .ok _, .error e => refuse o.pretty "E_USAGE" e.message
  | .ok maxSteps, .ok inputs => do
    if ← openTrace o.tracePath then runUnit o unit inputs maxSteps o.tracePath
    else refuse o.pretty "E_IO" openMessage

theorem runChecked_eq : runChecked p o unit = (Settings.find p).bind fun s =>
    (s.skipped.forM fun f =>
      complain o.pretty "W_CONFIG" s!"Ignoring config {f.path}: {f.reason}").bind fun _ =>
        proceed o unit s.config := rfl

theorem runs_proceed : (proceed o unit config).Runs es result ↔ Goes o unit config es result := by
  constructor
  · intro h
    unfold proceed at h
    split at h
    · next message hlimit =>
        obtain ⟨text, ht, hn, rfl⟩ := limit_eq_error_iff.mp hlimit
        exact .refused (.limit ht hn) (runs_refuse_iff.mp h)
    · next hlimit he =>
        exact .refused (.inputs (limit_eq_ok_iff.mp hlimit) he) (runs_refuse_iff.mp h)
    · next maxSteps inputs hlimit hi =>
        have hl := limit_eq_ok_iff.mp hlimit
        rcases runs_openTrace.mp h with ⟨rest, rfl, hrest⟩ | ⟨path, rest, ht, rfl, hrest⟩
        · by_cases hn : unit.Declares inputs
          · obtain ⟨runId, timed, last, htimed, rfl, hlast⟩ := (runs_runUnit hn).mp hrest
            exact .ran ⟨hl, hi, hn⟩ runId _ htimed hlast
          · rw [runUnit_of_not_declares hn] at hrest
            rcases runs_refuseInputs.mp hrest with ⟨hfits, hrefusal⟩ | ⟨hlong, hrefusal⟩
            · exact .refused (.names hl hi hn hfits) hrefusal
            · exact .refused (.manyNames hl hi hn hlong) hrefusal
        · exact .refused (.trace hl hi ht) (runs_refuse_iff.mp hrest)
  · intro h
    -- with a limit and inputs that are accepted, the trace is next
    have hparsed : ∀ {maxSteps : Option Number} {inputs : Bindings Value}, Granted o config maxSteps →
        Inputs.parse o.inputs = .ok inputs → proceed o unit config = (do
          if ← openTrace o.tracePath then runUnit o unit inputs maxSteps o.tracePath
          else refuse o.pretty "E_IO" openMessage : Shell Nat) := by
      intro maxSteps inputs hl hi
      rw [proceed, limit_eq_ok_iff.mpr hl, hi]
    cases h with
    | refused hfails h =>
        have hrefuse := runs_refuse_iff.mpr h
        cases hfails with
        | limit ht hn =>
            rw [proceed, limit_eq_error_iff.mpr ⟨_, ht, hn, rfl⟩]
            exact hrefuse
        | inputs hl he =>
            rw [proceed, limit_eq_ok_iff.mpr hl, he]
            exact hrefuse
        | trace hl hi ht =>
            rw [hparsed hl hi, runs_openTrace]
            exact .inr ⟨_, _, ht, rfl, hrefuse⟩
        | names hl hi hn hfits =>
            rw [hparsed hl hi, runs_openTrace, runUnit_of_not_declares hn]
            exact .inl ⟨_, rfl, runs_refuseInputs.mpr (.inl ⟨hfits, h⟩)⟩
        | manyNames hl hi hn hlong =>
            rw [hparsed hl hi, runs_openTrace, runUnit_of_not_declares hn]
            exact .inl ⟨_, rfl, runs_refuseInputs.mpr (.inr ⟨hlong, h⟩)⟩
    | ran hadmits runId timed htimed h =>
        rw [hparsed hadmits.granted hadmits.parsed, runs_openTrace]
        exact .inl ⟨_, rfl, (runs_runUnit hadmits.declared).mpr ⟨runId, _, _, htimed, rfl, h⟩⟩

/-! ### The whole command -/

theorem runs_runChecked : (runChecked p o unit).Runs es result ↔
    ∃ looked s warned, Settings.Finds p.files looked s ∧
      ((Warns o.pretty s.skipped warned (.error .tooLarge) ∧ es = looked ++ warned ∧ result = .error .tooLarge) ∨
        (Warns o.pretty s.skipped warned (.ok ()) ∧
          ∃ rest, es = looked ++ warned ++ rest ∧ Goes o unit s.config rest result)) := by
  rw [runChecked_eq, Shell.runs_bind]
  constructor
  · rintro ⟨first, looked, after, rfl, hfind, h⟩
    obtain ⟨s, hs, rfl⟩ := Settings.runs_find.mp hfind
    rw [Shell.bind_done_ok, Shell.runs_bind] at h
    obtain ⟨second, warned, rest, rfl, hwarned, h⟩ := h
    have hwarns := runs_warnings.mp hwarned
    cases second with
    | error e =>
        obtain rfl := hwarns.eq_tooLarge
        obtain ⟨rfl, rfl⟩ := Shell.runs_done.mp h
        exact ⟨looked, s, warned, hs, .inl ⟨hwarns, by rw [List.append_nil], rfl⟩⟩
    | ok => exact ⟨looked, s, warned, hs, .inr ⟨hwarns, rest, (List.append_assoc ..).symm, runs_proceed.mp h⟩⟩
  · rintro ⟨looked, s, warned, hs, ⟨hwarns, rfl, rfl⟩ | ⟨hwarns, rest, rfl, h⟩⟩
    · refine ⟨_, looked, warned, rfl, Settings.runs_find.mpr ⟨s, hs, rfl⟩, ?_⟩
      rw [Shell.bind_done_ok, Shell.runs_bind]
      exact ⟨_, warned, [], (List.append_nil _).symm, runs_warnings.mpr hwarns, .done _⟩
    · refine ⟨_, looked, _, List.append_assoc .., Settings.runs_find.mpr ⟨s, hs, rfl⟩, ?_⟩
      rw [Shell.bind_done_ok, Shell.runs_bind]
      exact ⟨_, warned, rest, rfl, runs_warnings.mpr hwarns, runs_proceed.mpr h⟩

theorem runs_run {file text : String}
    (hpass : Passes (if file = "-" then "<stdin>" else file) (.text text) unit) :
    (run p file o).Runs ((if file = "-" then .input text else .read file (.text text)) :: es) result ↔
      (runChecked p o unit).Runs es result := by
  obtain ⟨_, ⟨⟩, hload, hvalid⟩ := hpass
  unfold run
  by_cases hfile : file = "-"
  · simp only [if_pos hfile] at hload ⊢
    rw [Shell.runs_input_cons]
    simp only [runContents, hload, hvalid]
  · simp only [if_neg hfile] at hload ⊢
    rw [Shell.runs_read_cons]
    simp only [runContents, hload, hvalid]

/-- The module is carried out only where all checks pass, and the exit code tells how it ended. -/
theorem Goes.admits (h : Goes o unit config es result)
    (hran : result = .ok 0 ∨ result = .ok 1 ∨ ∃ e ∈ es, e.OfScript) :
    ∃ inputs maxSteps, Admits o unit config inputs maxSteps ∧ opening o.tracePath <+: es ∧
      (result = .ok 0 ↔ ∃ v, (unit.executed inputs maxSteps).1 = .ok v) ∧
      (result = .ok 1 ↔ ∃ r text, (unit.executed inputs maxSteps).1 = .error (.script r) ∧
        r.render? = some text ∧ Text.length text < Text.maxLength) := by
  cases h with
  | refused hfails h =>
      obtain ⟨hzero, hone, hquiet⟩ := h.quiet
      rcases hran with hran | hran | ⟨e, he, hscript⟩
      · exact absurd hran hzero
      · exact absurd hran hone
      · exact absurd hscript (List.forall_mem_append.mpr ⟨hfails.quiet, hquiet⟩ e he)
  | ran hadmits _ _ _ h => exact ⟨_, _, hadmits, List.prefix_append .., h.zero_iff, h.one_iff⟩

/-- **A unit without defects runs only where its command can start it.**  Whatever the limit and the inputs on the
command line, the contents of both configuration files and the trace file:

* a run reads the configuration files up to the first that holds a configuration and reports those that it passes
  over.  Then, of the limit, the inputs, the trace file and the names of the inputs, the first that is refused is
  reported, the command ends with code 4, and nothing else is printed and no event is written; or the module is
  carried out, its output printed, its events written, and the command ends as it did: with code 0 where it
  finished, with code 1 and the traceback where an exception escaped, and with code 4 and a report where an error
  of the host did.  A traceback that is too long for a text, like names that are, is such an error: the exception
  is lost then;
* so a script prints, writes events or ends the command with code 0 or 1 only where all of these are accepted, and
  the code tells whether the module finished or raised an exception that could be shown.  The limit on its steps is
  absent or a whole number of at least one: the one on the command line, or else that of the first configuration;
* a report is printed unless it is too long for a text, which takes a message of more than sixty-seven million
  units. -/
theorem run_gated {file text : String}
    (hpass : Passes (if file = "-" then "<stdin>" else file) (.text text) unit) :
    (∀ es result,
      (run p file o).Runs ((if file = "-" then .input text else .read file (.text text)) :: es) result ↔
        ∃ looked s warned, Settings.Finds p.files looked s ∧
          ((Warns o.pretty s.skipped warned (.error .tooLarge) ∧ es = looked ++ warned ∧
              result = .error .tooLarge) ∨
            (Warns o.pretty s.skipped warned (.ok ()) ∧
              ∃ rest, es = looked ++ warned ++ rest ∧ Goes o unit s.config rest result))) ∧
    (∀ es result,
      (run p file o).Runs ((if file = "-" then .input text else .read file (.text text)) :: es) result →
        (result = .ok 0 ∨ result = .ok 1 ∨ ∃ e ∈ es, e.OfScript) →
          ∃ looked s inputs maxSteps, Settings.Finds p.files looked s ∧ looked <+: es ∧
            Admits o unit s.config inputs maxSteps ∧ (∀ path ∈ o.tracePath, .create path true ∈ es) ∧
            (∀ n ∈ maxSteps, n.IsLimit) ∧
            (result = .ok 0 ↔ ∃ v, (unit.executed inputs maxSteps).1 = .ok v) ∧
            (result = .ok 1 ↔ ∃ r text, (unit.executed inputs maxSteps).1 = .error (.script r) ∧
              r.render? = some text ∧ Text.length text < Text.maxLength)) ∧
    ∀ code message, 8 * (Text.length code + Text.length message) + 24 ≤ Text.maxLength →
      Text.length (Diagnostic.line o.pretty code message) ≤ Text.maxLength := by
  have hruns : ∀ es result, _ ↔ _ := fun es result =>
    (@runs_run p o unit es result file text hpass).trans runs_runChecked
  refine ⟨hruns, fun es result h hran => ?_, fun code message h => Nat.le_trans (Diagnostic.length_line_le ..) h⟩
  obtain ⟨looked, s, warned, hs, ⟨hwarns, rfl, rfl⟩ | ⟨hwarns, rest, rfl, hgoes⟩⟩ := (hruns es result).mp h
  · -- a warning that is too long ends the command before any check
    rcases hran with hran | hran | ⟨e, he, hscript⟩
    · cases hran
    · cases hran
    · exact absurd hscript (List.forall_mem_append.mpr ⟨hs.quiet, hwarns.quiet⟩ e he)
  · have hrest : result = .ok 0 ∨ result = .ok 1 ∨ ∃ e ∈ rest, e.OfScript := by
      refine hran.imp_right (.imp_right ?_)
      rintro ⟨e, he, hscript⟩
      rcases List.mem_append.mp he with he | he
      · exact absurd hscript (List.forall_mem_append.mpr ⟨hs.quiet, hwarns.quiet⟩ e he)
      · exact ⟨e, he, hscript⟩
    obtain ⟨inputs, maxSteps, hadmits, hopening, hzero, hone⟩ := hgoes.admits hrest
    refine ⟨looked, s, inputs, maxSteps, hs, ?_, hadmits, fun path hpath => ?_,
      hadmits.granted.isLimit hs.isLimit, hzero, hone⟩
    · rw [List.append_assoc]
      exact List.prefix_append ..
    · have hmade : .create path true ∈ opening o.tracePath := by
        rw [Option.mem_def.mp hpath]
        exact List.mem_singleton.mpr rfl
      exact List.mem_append_right _ (hopening.subset hmade)

/-- A unit that prints its input. -/
def echoing : CompiledUnit where
  file := "echo.py"
  source := "print(n)"
  inputs := some ["n"]
  functions := []
  module := [.expr (.call (.name "print" none) [.name "n" none] none ⟨.ofNat 1, .ofNat 0, .ofNat 8⟩) none]

theorem wellFormed_echoing : echoing.WellFormed (·.isFinite = true) := by
  have hwhole : ∀ {least m : Nat}, least ≤ m → m ≤ 8 → (Number.ofNat m).AtLeast least := fun hl hm =>
    ⟨_, Number.toInt?_ofNat (Nat.le_trans hm (by decide)), Int.ofNat_le.mpr hl⟩
  have hname : ∀ {name : String}, name ≠ "" → Expr.WellFormed (·.isFinite = true) (.name name none) :=
    fun h => .name h nofun
  refine ⟨by decide, by simp [echoing], by simp [echoing], ?_⟩
  intro s hs
  obtain rfl := List.mem_singleton.mp hs
  refine ⟨.call (hname (by decide)) ?_ (by simp) (by simp)
    ⟨hwhole (by decide) (by decide), hwhole (by decide) (by decide), hwhole (by decide) (by decide)⟩, by simp⟩
  simpa using hname (by decide)

/-- The module of a unit finishes after printing a text, without a run of its own. -/
def finishes (text : String) (x : Except Abort Value × World Body Globals) : Bool :=
  match x with
  | (.ok _, w) => w.shared.output = text && w.trace.toList.isEmpty
  | (.error _, _) => false

/-- With a limit of 16 steps, an input of another name is refused once the trace file is made; an input of the
declared name is printed. -/
theorem run_gated_echoing : ∃ text : String, ∀ runId,
    (run ⟨"p", "h"⟩ "echo.json" ⟨some "t.jsonl", some "0x10", ["m=1"], false⟩).Runs
      [.read "echo.json" (.text text), .read (joinPath "p" ".tasklet.json") .absent,
        .read (joinPath "h" ".tasklet/config.json") (.text "\x7b\x7d"), .create "t.jsonl" true,
        .print .error (Diagnostic.line false "E_INPUT" "Invalid inputs: missing 'n'; unexpected 'm'." ++ "\n")]
      (.ok 4) ∧
    (run ⟨"p", "h"⟩ "echo.json" ⟨some "t.jsonl", some "0x10", ["n=1"], false⟩).Runs
      [.read "echo.json" (.text text), .read (joinPath "p" ".tasklet.json") .absent,
        .read (joinPath "h" ".tasklet/config.json") (.text "\x7b\x7d"), .create "t.jsonl" true,
        .print .scriptOutput "1\n", .runId runId, .print .scriptError ""]
      (.ok 0) := by
  obtain ⟨text, hload⟩ : ∃ text, UnitFile.load text "echo.json" = .ok echoing :=
    ⟨_, UnitFile.load_members wellFormed_echoing "echo.json" (some "echo.py") (by simp)⟩
  have hpass : Passes (if "echo.json" = "-" then "<stdin>" else "echo.json") (.text text) echoing :=
    ⟨text, rfl, hload, by decide +kernel⟩
  obtain ⟨s, hs, hskipped⟩ : ∃ s, Settings.Finds (Places.files ⟨"p", "h"⟩)
      [.read (joinPath "p" ".tasklet.json") .absent,
        .read (joinPath "h" ".tasklet/config.json") (.text "\x7b\x7d")] s ∧ s.skipped = [] :=
    ⟨_, .absent (.holds (Settings.fromContents_eq_ok_iff.mp rfl)), rfl⟩
  have hgranted : ∀ inputs, Granted ⟨some "t.jsonl", some "0x10", inputs, false⟩ s.config
      (some (.ofNumeral "0x10")) := fun _ => .given rfl (Number.isPositiveInteger_iff.mp (by decide +kernel))
  obtain ⟨other, hother, hundeclared, hmessage⟩ : ∃ b, Inputs.parse ["m=1"] = .ok b ∧ ¬ echoing.Declares b ∧
      (echoing.mismatch b).message = "Invalid inputs: missing 'n'; unexpected 'm'." :=
    ⟨_, rfl, mt CompiledUnit.declares_iff.mp (by decide +kernel), by decide +kernel⟩
  obtain ⟨given, hgiven, hdeclared, hends⟩ : ∃ b, Inputs.parse ["n=1"] = .ok b ∧ echoing.Declares b ∧
      finishes "1\n" (echoing.executed b (some (.ofNumeral "0x10"))) = true :=
    ⟨_, rfl, CompiledUnit.declares_iff.mpr (by decide +kernel), by decide +kernel⟩
  obtain ⟨v, w, hexecuted, hprinted, hsilent⟩ : ∃ v w,
      echoing.executed given (some (.ofNumeral "0x10")) = (.ok v, w) ∧ w.shared.output = "1\n" ∧
        w.trace.toList = [] := by
    unfold finishes at hends
    split at hends
    · next v w h =>
        rw [Bool.and_eq_true, decide_eq_true_eq, List.isEmpty_iff] at hends
        exact ⟨v, w, h, hends⟩
    · cases hends
  have hwarns : Warns false s.skipped [] (.ok ()) := hskipped ▸ .done
  refine ⟨text, fun runId => ⟨?_, ?_⟩⟩
  · have hrefused := Goes.refused (.names (hgranted _) hother hundeclared (by rw [hmessage]; decide +kernel))
      (.reported (by rw [hmessage]; decide +kernel))
    rw [hmessage] at hrefused
    exact ((run_gated hpass).1 _ _).mpr ⟨_, s, [], hs, .inr ⟨hwarns, _, rfl, hrefused⟩⟩
  · have hended : Ends false (echoing.executed given (some (.ofNumeral "0x10"))).1
        [.print .scriptError ""] (.ok 0) := by
      rw [hexecuted]
      exact .finished v
    have hran := Goes.ran ⟨hgranted _, hgiven, hdeclared⟩ runId []
      (by rw [hexecuted, hsilent]; rfl) hended
    rw [hexecuted, told, hprinted] at hran
    exact ((run_gated hpass).1 _ _).mpr ⟨_, s, [], hs, .inr ⟨hwarns, _, rfl, hran⟩⟩

end Command

end Coroutines
