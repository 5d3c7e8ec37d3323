import Coroutines.World
import Coroutines.UnitFile.Encode
import Coroutines.UnitFile.Decode

/-!
# Lines of a trace file

An event of a run with the time and the run it belongs to, one JSON object a line.  Reading
accepts any event name and any plain data, so a file may hold events of other origin.
-/

namespace Coroutines

def outcomeWord (ok : Bool) : String := if ok then "ok" else "err"

namespace Event

def name : Event → String
  | .runStart _ => "run_start"
  | .runEnd _ _ => "run_end"
  | .taskSpawn _ _ _ => "task_spawn"
  | .taskSuspend _ _ => "task_suspend"
  | .taskEnd _ _ _ => "task_end"
  | .joinStart _ _ => "join_start"
  | .joinEnd _ _ => "join_end"
  | .budgetExceeded _ => "budget_exceeded"

/-- A count; one that is counted up by ones stays at the first number whose successor is not exact. -/
def count (n : Nat) : Literal := .number (.ofNat (min n Number.maxExact))

/-- What an event tells besides its name. -/
def data : Event → Bindings Literal
  | .runStart coroutine => [("coroutine", .text coroutine)]
  | .runEnd ok steps => [("outcome", .text (outcomeWord ok)), ("steps", count steps)]
  | .taskSpawn task index coroutine =>
    [("task", count task), ("index", count index), ("coroutine", .text coroutine)]
  | .taskSuspend task awaiting => [("task", count task), ("awaiting", .text awaiting)]
  | .taskEnd task index ok =>
    [("task", count task), ("index", count index), ("outcome", .text (outcomeWord ok))]
  | .joinStart task size => [("task", count task), ("size", count size)]
  | .joinEnd task ok => [("task", count task), ("outcome", .text (outcomeWord ok))]
  | .budgetExceeded limit => [("budget", .text "maxSteps"), ("limit", .number limit)]

end Event

structure TraceLine where
  time : String
  runId : String
  event : String
  data : Option (Bindings Literal)

namespace TraceLine

def ofEvent (time runId : String) (e : Event) : TraceLine := ⟨time, runId, e.name, some e.data⟩

def dataJson (data : Bindings Literal) : Json := .object (data.map fun (key, v) => (key, v.json))

def json (l : TraceLine) : Json :=
  .object <|
    [("ts", .text l.time), ("runId", .text l.runId), ("event", .text l.event)] ++
      Json.member? "data" (l.data.map dataJson)

/-- An object of plain values. -/
def data? : Json → Option (Bindings Literal)
  | .object members => members.mapM fun (key, v) => (UnitFile.literal? v).map (key, ·)
  | _ => none

def ofJson? (j : Json) : Option TraceLine := do
  let time ← j.field? "ts" Json.text?
  let runId ← j.field? "runId" Json.text?
  let event ← j.field? "event" Json.text?
  let data ← j.optional? "data" data?
  some ⟨time, runId, event, data⟩

/-- A value of the line's data. -/
def datum? (l : TraceLine) (key : String) : Option Literal := l.data.bind (·.get? key)

end TraceLine

end Coroutines
