import Coroutines.Command.Settings
import Coroutines.Inputs
import Coroutines.Script.Host
import Coroutines.Trace.Summary
import Coroutines.UnitFile.Load
import Coroutines.Validation

/-!
# Commands

Running and checking a unit, summarising a trace and showing the configuration.  Each command ends
with an exit code: `0`, `1` for a script that raised, `2` for a unit with defects and `4` for
everything that kept the command from its work.
-/

namespace Coroutines

namespace Command

/-- Prints a report; one beyond the greatest length of a text ends the command. -/
def printReport : Option String → Shell Unit
  | some text => .printLine .error text
  | none => .done (.error .tooLarge)

/-- Reports why a command cannot do its work. -/
def complain (pretty : Bool) (code message : String) : Shell Unit :=
  printReport ((Diagnostic.plain code message).format? pretty none)

def refuse (pretty : Bool) (code message : String) : Shell Nat := do
  complain pretty code message
  pure 4

def reject (pretty : Bool) (source : Option String) (ds : List Diagnostic) : Shell Nat := do
  printReport (Diagnostic.formatAll? ds pretty source)
  pure 2

structure RunOptions where
  /-- Where the trace goes. -/
  trace : Option String
  maxSteps : Option String
  inputs : List String
  pretty : Bool

/-- The limit that the command line gives, or else the configuration. -/
def limit (o : RunOptions) (config : Config) : Except String (Option Number) :=
  match o.maxSteps with
  | none => .ok config.maxSteps
  | some text =>
    let n := Number.ofNumeral text
    if n.isPositiveInteger then .ok (some n)
    else .error s!"--max-steps must be a positive integer, got '{text}'."

/-- Makes the trace file, if one is asked for; tells whether it could. -/
def openTrace : Option String → Shell Bool
  | none => pure true
  | some path => .create path pure

/-- Writes events to a trace file, each on a line of its own with the time at which it is written. -/
def writeEvents (path runId : String) : List Event → Shell Unit
  | [] => pure ()
  | e :: rest =>
    .time fun time =>
      .append path ((TraceLine.ofEvent time runId e).json.compact ++ "\n") (writeEvents path runId rest)

def writeTrace (path : Option String) (events : List Event) : Shell Unit :=
  match path with
  | none => pure ()
  | some path => .runId fun runId => writeEvents path runId events

/-- Reports an error of the host. -/
def fail (pretty : Bool) (e : Abort) : Shell Nat := refuse pretty "E_RUNTIME" e.message

/-- Reports inputs that do not fit the declared ones. -/
def refuseInputs (pretty : Bool) (m : InputMismatch) : Shell Nat :=
  match m.message? with
  | some message => refuse pretty "E_INPUT" message
  | none => fail pretty .tooLarge

/-- Ends a command with the exit code and the error text of a unit, or with the error of the host. -/
def conclude (pretty : Bool) : Except Abort (Nat × String) → Shell Nat
  | .ok (code, text) => do
    .print .scriptError text (pure ())
    pure code
  | .error e => fail pretty e

/-- Runs a unit and prints what it wrote and how it ended. -/
def runUnit (o : RunOptions) (unit : CompiledUnit) (inputs : Bindings Value)
    (maxSteps : Option Number) (trace : Option String) : Shell Nat :=
  match unit.run inputs maxSteps with
  | .error mismatch => refuseInputs o.pretty mismatch
  | .ok (result, w) => do
    .print .scriptOutput w.shared.output (pure ())
    writeTrace trace (w.trace.toList.map Prod.snd)
    conclude o.pretty (result.bind UnitResult.report)

/-- Runs a unit that has no defects. -/
def runChecked (p : Places) (o : RunOptions) (unit : CompiledUnit) : Shell Nat := do
  let settings ← Settings.find p
  settings.skipped.forM fun f =>
    complain o.pretty "W_CONFIG" s!"Ignoring config {f.path}: {f.reason}"
  match limit o settings.config, Inputs.parse o.inputs with
  | .error message, _ => refuse o.pretty "E_USAGE" message
  | .ok _, .error e => refuse o.pretty "E_USAGE" e.message
  | .ok maxSteps, .ok inputs => do
    let trace := o.trace.filter (· ≠ "")
    if ← openTrace trace then runUnit o unit inputs maxSteps trace
    else refuse o.pretty "E_IO" s!"Error opening trace file: {Contents.readError}"

/-- Runs the unit that some contents describe, if it has no defects. -/
def runContents (p : Places) (o : RunOptions) (name : String) : Contents → Shell Nat
  | .text text =>
    match UnitFile.load text name with
    | .error ds => reject o.pretty none ds
    | .ok unit =>
      match unit.validate (some Builtin.names) with
      | [] => runChecked p o unit
      | ds => reject o.pretty (some unit.source) ds
  | _ => refuse o.pretty "E_IO" s!"Error reading file: {Contents.readError}"

/-- Runs the unit of a file, or of the standard input for a dash. -/
def run (p : Places) (file : String) (o : RunOptions) : Shell Nat :=
  if file = "-" then .input fun text => runContents p o "<stdin>" (.text text)
  else .read file (runContents p o file)

/-- Checks the unit of a file. -/
def check (file : String) (pretty : Bool) : Shell Nat :=
  .read file fun
    | .text text =>
      match UnitFile.load text file with
      | .error ds => reject pretty none ds
      | .ok unit =>
        match unit.validate (some Builtin.names) with
        | [] => do
          .printLine .output (if pretty then "No errors found." else "[]")
          pure 0
        | ds => reject pretty (some unit.source) ds
    | _ => refuse pretty "E_IO" s!"Error reading file: {Contents.readError}"

/-- Summarises a trace file. -/
def trace (file : String) (json : Bool) : Shell Nat :=
  .read file fun
    | .text content =>
      match Summary.ofContent? content with
      | none => do
        .printLine .error "No valid trace events found."
        pure 4
      | some summary => do
        .printLines .output (if json then [summary.json.indented] else summary.report)
        pure 0
    | _ => do
      .printLine .error s!"Error reading trace file: {Contents.readError}"
      pure 4

/-- Shows the effective configuration. -/
def config (p : Places) (json : Bool) : Shell Nat := do
  let settings ← Settings.find p
  .printLines .output (if json then [settings.json.indented] else settings.report)
  pure 0

end Command

end Coroutines
