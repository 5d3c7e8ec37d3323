import Coroutines.Value.Basic
import Coroutines.Bindings

/-!
# Binding arguments to parameters

Positional arguments take the parameters in order, keywords the ones they name, and every
parameter must be bound once.
-/

namespace Coroutines

/-- Quoted names as a list in a sentence. -/
def quoteNames : List String → String
  | [] => ""
  | [a] => s!"'{a}'"
  | [a, b] => s!"'{a}' and '{b}'"
  | names =>
    let quoted := names.map fun n => s!"'{n}'"
    let listed := ", ".intercalate quoted.dropLast
    let last := quoted.getLastD ""
    s!"{listed}, and {last}"

namespace FunctionDecl

def pluralSuffix (n : Nat) : String := if n = 1 then "" else "s"

/-- More positional arguments than parameters. -/
def surplusFailure (fn : FunctionDecl) (given : Nat) : Failure :=
  let expected := fn.params.length
  let s := pluralSuffix expected
  let were := if given = 1 then "was" else "were"
  .arity fn.name expected (some expected) given <| some
    s!"{fn.name}() takes {expected} positional argument{s} but {given} {were} given"

/-- Parameters that neither a positional argument nor a keyword binds. -/
def missingFailure (fn : FunctionDecl) (given : Nat) (missing : List String) : Failure :=
  let expected := fn.params.length
  let s := pluralSuffix missing.length
  let names := quoteNames missing
  .arity fn.name expected (some expected) given <| some
    s!"{fn.name}() missing {missing.length} required positional argument{s}: {names}"

/-- Binds keywords one after the other; each must name a parameter that is not yet bound. -/
def bindKeywords (fn : FunctionDecl) (locals : Bindings Value) :
    Bindings Value → Except Failure (Bindings Value)
  | [] => .ok locals
  | (name, value) :: rest =>
    if !fn.params.contains name then .error (.unexpectedKeyword fn.name name)
    else if locals.has name then .error (.duplicateArgument fn.name name)
    else bindKeywords fn (locals.set name value) rest

/-- The first local bindings of a call, or why the arguments do not fit the parameters. -/
def bindParams (fn : FunctionDecl) (args : List Value) (kwargs : Bindings Value) :
    Except Failure (Bindings Value) :=
  if fn.params.length < args.length then .error (fn.surplusFailure args.length)
  else
    match fn.bindKeywords (.ofList (fn.params.zip args)) kwargs with
    | .error f => .error f
    | .ok locals =>
      match fn.params.filter (!locals.has ·) with
      | [] => .ok locals
      | missing => .error (fn.missingFailure args.length missing)

end FunctionDecl

end Coroutines
