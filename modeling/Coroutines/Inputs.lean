import Coroutines.Json.Read
import Coroutines.UnitFile.Load
import Coroutines.Value.Basic

/-!
# Input values from the command line

Each is written as a name, an equals sign and JSON data without objects.
-/

namespace Coroutines

namespace Value

mutual

/-- The value of JSON data, which objects have none of. -/
def ofJson? : Json → Option Value
  | .null => some .none
  | .bool b => some (.bool b)
  | .number n => some (if n.isInteger then .int (.ofNumber n) else .float n)
  | .text s => some (.str s)
  | .array items => (itemsOfJson? items).map .list
  | .object _ => Option.none

def itemsOfJson? : List Json → Option (List Value)
  | [] => some []
  | j :: rest =>
    match ofJson? j, itemsOfJson? rest with
    | some v, some vs => some (v :: vs)
    | _, _ => Option.none

end

end Value

/-- Why an input is refused. -/
inductive InputError where
  | malformed (spec : String)
  | repeated (name : String)
  | notJson (name : String)
  | notData (name : String)
  deriving DecidableEq, Repr

def InputError.message : InputError → String
  | .malformed spec => s!"--input expects name=<json>, got '{spec}'."
  | .repeated name => s!"--input '{name}' given more than once."
  | .notJson name => s!"--input '{name}' is not valid JSON: {Json.syntaxError}"
  | .notData name => s!"--input '{name}' must be null, a boolean, number, string or array of those."

namespace Inputs

/-- The name before the first equals sign, which is not empty, and the text after it. -/
def split? (spec : String) : Option (String × String) :=
  let cs := spec.toList
  match cs.takeWhile (· ≠ '='), cs.dropWhile (· ≠ '=') with
  | c :: name, _ :: data => some (String.ofList (c :: name), String.ofList data)
  | _, _ => none

/-- The value of one input. -/
def value (name data : String) : Except InputError Value :=
  match Json.parse? data with
  | none => .error (.notJson name)
  | some j =>
    match Value.ofJson? j with
    | some v => .ok v
    | none => .error (.notData name)

/-- The inputs after those in `bound`. -/
def parseFrom (bound : Bindings Value) : List String → Except InputError (Bindings Value)
  | [] => .ok bound
  | spec :: rest =>
    match split? spec with
    | none => .error (.malformed spec)
    | some (name, data) =>
      if bound.has name then .error (.repeated name)
      else
        match value name data with
        | .error e => .error e
        | .ok v => parseFrom (bound.set name v) rest

/-- The inputs that texts give, or the first reason to refuse one. -/
def parse (specs : List String) : Except InputError (Bindings Value) :=
  (parseFrom [] specs).map Bindings.indexFirst

end Inputs

end Coroutines
