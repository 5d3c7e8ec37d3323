import Coroutines.UnitFile.Issues
import Coroutines.UnitFile.Encode
import Coroutines.Json.Read
import Coroutines.Diagnostic

/-!
# Loading a unit

From the text of a unit file to a unit, or to diagnostics: one for a text that is not JSON, else
one for each issue.
-/

namespace Coroutines

/-- How reports call a text that is not JSON. -/
def Json.syntaxError : String := "<json error>"

namespace UnitFile

def diagnostic (i : Issue) : Diagnostic :=
  ⟨"E_UNIT", s!"{i.place}: {i.message}", none,
    some "Units are produced by the compiler; regenerate the file."⟩

/-- Loads a unit; `file` is its name where the text gives none. -/
def load (text file : String) : Except (List Diagnostic) CompiledUnit :=
  match Json.parse? text with
  | none => .error [.plain "E_UNIT_JSON" s!"Unit file is not valid JSON: {Json.syntaxError}"]
  | some j =>
    match issues j, decode? file j with
    | [], some unit => .ok unit
    | found, _ => .error (found.map diagnostic)

end UnitFile

end Coroutines
