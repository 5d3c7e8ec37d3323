import Coroutines.Trace.Line
import Coroutines.Trace.Instant
import Coroutines.Json.Read
import Coroutines.Text

/-!
# Summary of a trace

What the lines of a trace file amount to: how the last run ended and how often each event came.
-/

namespace Coroutines

inductive RunVerdict where
  | ok
  | err
  | incomplete
  deriving DecidableEq, Repr

def RunVerdict.word : RunVerdict → String
  | .ok => "ok"
  | .err => "err"
  | .incomplete => "incomplete"

structure Summary where
  runId : String
  totalEvents : Nat
  skippedLines : Nat
  outcome : RunVerdict
  steps : Option Number
  tasksSpawned : Nat
  joins : Nat
  suspensions : Nat
  failedTasks : Nat
  budgetExceeded : Nat
  /-- The start and the end time, in the order in which their events first came. -/
  times : Bindings String

namespace Summary

/-- A summary before any event was counted. -/
def start (runId : String) (totalEvents skippedLines : Nat) : Summary :=
  ⟨runId, totalEvents, skippedLines, .incomplete, none, 0, 0, 0, 0, 0, []⟩

def steps? (l : TraceLine) : Option Number :=
  match l.datum? "steps" with
  | some (.number n) => some n
  | _ => none

/-- The summary with one more event; events of other names only count in the total. -/
def count (s : Summary) (l : TraceLine) : Summary :=
  match l.event with
  | "run_start" => { s with times := s.times.set "startTime" l.time }
  | "run_end" =>
    { s with
      times := s.times.set "endTime" l.time
      outcome := if l.datum? "outcome" = some (.text "ok") then .ok else .err
      steps := steps? l <|> s.steps }
  | "task_spawn" => { s with tasksSpawned := s.tasksSpawned + 1 }
  | "join_start" => { s with joins := s.joins + 1 }
  | "task_suspend" => { s with suspensions := s.suspensions + 1 }
  | "task_end" =>
    if l.datum? "outcome" = some (.text "err") then { s with failedTasks := s.failedTasks + 1 }
    else s
  | "budget_exceeded" => { s with budgetExceeded := s.budgetExceeded + 1, outcome := .err }
  | _ => s

/-- The summary of a trace; there is none without an event. -/
def ofLines? (lines : List TraceLine) (skipped : Nat) : Option Summary :=
  lines.head?.map fun first => lines.foldl count (start first.runId lines.length skipped)

/-- The milliseconds from start to end, where both were written. -/
def duration? (s : Summary) : Option Number :=
  match (s.times.get? "startTime").filter (· ≠ ""), (s.times.get? "endTime").filter (· ≠ "") with
  | some first, some last => some ((Instant.number last).sub (Instant.number first))
  | _, _ => none

def json (s : Summary) : Json :=
  .object <|
    [("runId", .text s.runId), ("totalEvents", .nat s.totalEvents),
      ("skippedLines", .nat s.skippedLines), ("outcome", .text s.outcome.word),
      ("steps", (s.steps.map Json.number).getD .null), ("tasksSpawned", .nat s.tasksSpawned),
      ("joins", .nat s.joins), ("suspensions", .nat s.suspensions),
      ("failedTasks", .nat s.failedTasks), ("budgetExceeded", .nat s.budgetExceeded)] ++
      s.times.map (fun (key, time) => (key, Json.text time)) ++
      Json.member? "durationMs" (s.duration?.map .number)

/-- The summary for a reader. -/
def report (s : Summary) : List String :=
  ["Trace Summary",
    s!"  Run ID:          {s.runId}",
    s!"  Outcome:         {s.outcome.word}",
    s!"  Total events:    {s.totalEvents}"] ++
  (s.steps.map fun n => s!"  Steps:           {n.text}").toList ++
  [s!"  Tasks spawned:   {s.tasksSpawned}",
    s!"  Joins:           {s.joins}",
    s!"  Suspensions:     {s.suspensions}",
    s!"  Failed tasks:    {s.failedTasks}",
    s!"  Budget exceeded: {s.budgetExceeded}"] ++
  (if s.skippedLines = 0 then [] else [s!"  Skipped lines:   {s.skippedLines}"]) ++
  (s.duration?.map fun ms => s!"  Duration:        {ms.text}ms").toList

/-- The lines of a trace file that are not blank; one that cannot be read is absent. -/
def readLines (content : String) : List (Option TraceLine) :=
  (content.splitOn "\n").filter (fun l => !(Text.trim l.toList).isEmpty) |>.map fun l =>
    (Json.parse? l).bind TraceLine.ofJson?

/-- The summary of the content of a trace file. -/
def ofContent? (content : String) : Option Summary :=
  let lines := readLines content
  let events := lines.filterMap id
  ofLines? events (lines.length - events.length)

end Summary

end Coroutines
