import Coroutines.Script.Evaluation
import Coroutines.Traceback

/-!
# Running a unit

The host binds the declared inputs, runs the module and reports an exception that escapes it as a
traceback (`UnitResult.report`).  Inputs that do not fit the declaration are refused before anything runs.
-/

namespace Coroutines

/-- Declared inputs without a value, and values without a declared input. -/
structure InputMismatch where
  missing : List String
  unexpected : List String
  deriving DecidableEq

namespace InputMismatch

def quoted (word : String) (names : List String) : List String :=
  if names.isEmpty then []
  else
    let list := ", ".intercalate (names.map fun n => s!"'{n}'")
    [s!"{word} {list}"]

def message (m : InputMismatch) : String :=
  let parts := "; ".intercalate (quoted "missing" m.missing ++ quoted "unexpected" m.unexpected)
  s!"Invalid inputs: {parts}."

/-- The message, absent beyond the greatest length of a text. -/
def message? (m : InputMismatch) : Option String := Text.bounded? m.message

end InputMismatch

namespace CompiledUnit

/-- The globals that a unit starts with: a value for exactly the declared inputs. -/
def bindInputs (unit : CompiledUnit) (provided : Bindings Value) :
    Except InputMismatch (Bindings Value) :=
  let declared := unit.inputs.getD []
  let provided := provided.indexFirst
  let missing := declared.filter (!provided.has ·)
  let unexpected := provided.names.filter (!declared.contains ·)
  if missing.isEmpty && unexpected.isEmpty then .ok provided else .error ⟨missing, unexpected⟩

end CompiledUnit

/-- How a unit ends: with the value of its module or with an exception. -/
inductive UnitResult where
  | finished (value : Value)
  | raised (record : Record)

namespace UnitResult

def exitCode : UnitResult → Nat
  | .finished _ => 0
  | .raised _ => 1

/-- What goes to the error stream: a traceback with a line break at its end, absent beyond the greatest
length of a text. -/
def errorText? : UnitResult → Option String
  | .finished _ => some ""
  | .raised record => record.render?.bind (Text.append? · "\n")

/-- The exit code, and what goes to the error stream; an exception whose traceback is too long ends in an
error of the host. -/
def report (r : UnitResult) : Except Abort (Nat × String) :=
  match r.errorText? with
  | some text => .ok (r.exitCode, text)
  | none => .error .tooLarge

end UnitResult

namespace Program

/-- The bound on nested calls, and on resumes and nested runs. -/
def bound : Nat := 1000000000000

/-- The world of a program with one scheduler, before any global is bound. -/
def world (p : Program) (maxSteps : Option Number) : World Body Globals :=
  { World.initial [maxSteps] ⟨[], ""⟩ with nextIdentity := p.unit.functions.length }

/-- Carries out a piece of script work. -/
def perform {α : Type} (p : Program) (work : Script α) (w : World Body Globals) :
    Except Abort α × World Body Globals :=
  w.perform (p.bodies bound) bound work

end Program

/-- Runs a unit in a world that holds the coroutines and groups among its input values.  An
exception of the script is a result; an error of the host is not. -/
def CompiledUnit.runIn (unit : CompiledUnit) (inputs : Bindings Value) (w : World Body Globals) :
    Except InputMismatch (Except Abort UnitResult × World Body Globals) :=
  match unit.bindInputs inputs with
  | .error m => .error m
  | .ok globals =>
    let p := Program.ofUnit unit
    let (result, w) :=
      p.perform (p.runModule Program.bound) { w with shared := ⟨globals, w.shared.output⟩ }
    .ok <| match result with
      | .ok v => (.ok (.finished v), w)
      | .error (.script r) => (.ok (.raised r), w)
      | .error e => (.error e, w)

/-- Runs a unit with input values and a limit on the resumes of a run. -/
def CompiledUnit.run (unit : CompiledUnit) (inputs : Bindings Value) (maxSteps : Option Number) :
    Except InputMismatch (Except Abort UnitResult × World Body Globals) :=
  unit.runIn inputs ((Program.ofUnit unit).world maxSteps)

end Coroutines
