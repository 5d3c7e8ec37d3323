import Coroutines.UnitFile.Decode

/-!
# Configuration

The content of a configuration file and why a JSON value is none.  Members that are not named
here are of no account.
-/

namespace Coroutines

structure Config where
  version : Number
  /-- The greatest number of resumes in one run. -/
  maxSteps : Option Number
  deriving DecidableEq

inductive ConfigError where
  | notObject
  | limitsNotObject
  | maxStepsNotPositive
  deriving DecidableEq, Repr

def ConfigError.message : ConfigError → String
  | .notObject => "Config must be a JSON object."
  | .limitsNotObject => "Config 'limits' must be an object when present."
  | .maxStepsNotPositive => "Config 'limits.maxSteps' must be a positive integer."

/-- A whole number above zero. -/
def Number.isPositiveInteger (n : Number) : Bool := n.isInteger && !n.lt (.ofNat 1)

namespace Config

/-- What holds where no file says otherwise. -/
def standard : Config := ⟨.ofNat 1, none⟩

def limits? (j : Json) : Except ConfigError (Option Number) :=
  match j.get? "limits" with
  | none => .ok none
  | some (.object members) =>
    match Bindings.get? members "maxSteps" with
    | none => .ok none
    | some (.number n) => if n.isPositiveInteger then .ok (some n) else .error .maxStepsNotPositive
    | some _ => .error .maxStepsNotPositive
  | some _ => .error .limitsNotObject

/-- The configuration of a JSON object; a version that is no number counts as the first. -/
def ofJson (j : Json) : Except ConfigError Config :=
  match j with
  | .object _ =>
    (limits? j).map fun maxSteps => ⟨(j.field? "version" Json.number?).getD (.ofNat 1), maxSteps⟩
  | _ => .error .notObject

def json (c : Config) : Json :=
  .object [("version", .number c.version),
    ("limits", .object ((c.maxSteps.map fun n => ("maxSteps", Json.number n)).toList))]

end Config

end Coroutines
