import Coroutines.Number.Decimal
import Coroutines.Text

/-!
# Failures

Why a script fails.  The exception type and the message are read off the failure
(`Failure.excType`, `Failure.message?`); no text is stored that could disagree with it.
-/

namespace Coroutines

/-- What the kind of a value may allow. -/
inductive Capability where
  | iterable
  | callable
  | awaitable
  deriving DecidableEq, Repr

namespace Capability

def name : Capability → String
  | .iterable => "iterable"
  | .callable => "callable"
  | .awaitable => "awaitable"

def all : List Capability := [.iterable, .callable, .awaitable]

theorem mem_all (c : Capability) : c ∈ all := by cases c <;> simp [all]

end Capability

inductive ExcType where
  | typeError
  | valueError
  | nameError
  | runtimeError
  | assertionError
  | syntaxError
  | resourceError
  deriving DecidableEq, Repr

namespace ExcType

def name : ExcType → String
  | .typeError => "TypeError"
  | .valueError => "ValueError"
  | .nameError => "NameError"
  | .runtimeError => "RuntimeError"
  | .assertionError => "AssertionError"
  | .syntaxError => "SyntaxError"
  | .resourceError => "ResourceError"

def all : List ExcType :=
  [.typeError, .valueError, .nameError, .runtimeError, .assertionError, .syntaxError,
    .resourceError]

end ExcType

inductive Failure where
  /-- A value whose kind lacks a capability that is asked of it. -/
  | argumentShape (kind : String) (capability : Capability)
  /-- A wrong number of arguments; `max` is absent where there is no upper bound. -/
  | arity (fn : String) (min : Nat) (max : Option Nat) (given : Nat) (message : Option String)
  | unexpectedKeyword (fn keyword : String)
  | duplicateArgument (fn name : String)
  /-- A run inside a run of the same scheduler. -/
  | nestedRun
  | noRunningLoop
  /-- A coroutine that has finished. -/
  | coroutineReuse
  /-- A coroutine that has started or belongs to a task. -/
  | coroutineBusy
  | groupAwaited
  | notAwaitable (kind : String)
  | unsupportedOperand (operator left right : String)
  | unboundName (name : String)
  | assertion (message : Option String)
  /-- More resumes in one run than its limit. -/
  | budget (limit : Number)
  | raised (excType : ExcType) (message : Option String)
  deriving DecidableEq

namespace Failure

def excType : Failure → ExcType
  | .argumentShape .. | .arity .. | .unexpectedKeyword .. | .duplicateArgument ..
  | .notAwaitable .. | .unsupportedOperand .. => .typeError
  | .nestedRun | .noRunningLoop | .coroutineReuse | .coroutineBusy | .groupAwaited => .runtimeError
  | .unboundName _ => .nameError
  | .assertion _ => .assertionError
  | .budget _ => .resourceError
  | .raised excType _ => excType

def plural (n : Nat) (word : String) : String := if n = 1 then s!"{n} {word}" else s!"{n} {word}s"

/-- The message of an arity failure that brings none of its own. -/
def arityMessage (fn : String) (min : Nat) (max : Option Nat) (given : Nat) : String :=
  if max = some min then
    if min = 0 then s!"{fn}() takes no arguments ({given} given)"
    else if min = 1 then s!"{fn}() takes exactly one argument ({given} given)"
    else s!"{fn}() takes exactly {min} arguments ({given} given)"
  else if given < min then
    let least := plural min "argument"
    s!"{fn}() expected at least {least}, got {given}"
  else
    let most := plural (max.getD min) "argument"
    s!"{fn}() expected at most {most}, got {given}"

/-- The message, absent where the exception carries none. -/
def message? : Failure → Option String
  | .argumentShape kind capability => some s!"'{kind}' object is not {capability.name}"
  | .arity fn min max given message => some (message.getD (arityMessage fn min max given))
  | .unexpectedKeyword fn keyword =>
    some s!"{fn}() got an unexpected keyword argument '{keyword}'"
  | .duplicateArgument fn name => some s!"{fn}() got multiple values for argument '{name}'"
  | .nestedRun => some "asyncio.run() cannot be called from a running event loop"
  | .noRunningLoop => some "no running event loop"
  | .coroutineReuse => some "cannot reuse already awaited coroutine"
  | .coroutineBusy => some "coroutine is being awaited already"
  | .groupAwaited => some "join group is already being awaited"
  | .notAwaitable kind => some s!"object {kind} can't be used in 'await' expression"
  | .unsupportedOperand operator left right =>
    some s!"unsupported operand type(s) for {operator}: '{left}' and '{right}'"
  | .unboundName name => some s!"name '{name}' is not defined"
  | .assertion message => message
  | .budget limit => some s!"step limit of {limit.text} exceeded"
  | .raised _ message => message

/-- The last line of a traceback: the type, and the message where there is one. -/
def describe (f : Failure) : String :=
  match f.message? with
  | none => f.excType.name
  | some message => s!"{f.excType.name}: {message}"

/-- The description, absent beyond the greatest length of a text. -/
def describe? (f : Failure) : Option String := Text.bounded? f.describe

end Failure

end Coroutines
