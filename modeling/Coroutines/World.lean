import Coroutines.Handle
import Coroutines.Table

/-!
# The world of schedulers

Coroutines, join groups, tasks and schedulers, all in tables, with the trace of what happened and
the state that bodies share.  A task is one slot of a scheduler: a coroutine with the chain of
coroutines that it awaits in turn.  A group is a fixed list of coroutines awaited together, each
of which gets a task of its own.
-/

namespace Coroutines

inductive TaskState where
  | pending
  | running
  | suspended
  | completed
  | failed
  deriving DecidableEq, Repr

namespace TaskState

def name : TaskState → String
  | .pending => "pending"
  | .running => "running"
  | .suspended => "suspended"
  | .completed => "completed"
  | .failed => "failed"

end TaskState

structure Task where
  /-- Counted from one in each scheduler. -/
  id : Nat
  /-- The place in the group, zero for the root of a run. -/
  index : Nat
  group : Option GroupRef
  state : TaskState
  /-- The await chain, the coroutine that is resumed next at its head. -/
  chain : List CoroutineRef
  inbox : Input
  outcome : Option Outcome

/-- The task once it has an outcome. -/
def Task.ended (x : Task) (outcome : Outcome) : Task :=
  { x with state := if outcome.isOk then .completed else .failed, outcome := some outcome }

structure Group where
  handles : List CoroutineRef
  /-- Whether a member's failure is delivered as a value. -/
  returnExceptions : Bool
  /-- The tasks of the members, as rows of the task table. -/
  tasks : List Nat
  /-- The task that awaits the group. -/
  awaitedBy : Option Nat

/-- The state of a run in progress. -/
structure RunContext where
  root : Nat
  /-- The tasks to resume, in order. -/
  ready : List Nat
  steps : Nat

structure Scheduler where
  nextTask : Nat
  context : Option RunContext
  /-- The greatest number of resumes in one run. -/
  maxSteps : Option Number

/-- What a run reports while it goes on. -/
inductive Event where
  | runStart (coroutine : String)
  | runEnd (ok : Bool) (steps : Nat)
  | taskSpawn (task index : Nat) (coroutine : String)
  | taskSuspend (task : Nat) (awaiting : String)
  | taskEnd (task index : Nat) (ok : Bool)
  | joinStart (task size : Nat)
  | joinEnd (task : Nat) (ok : Bool)
  | budgetExceeded (limit : Number)
  deriving DecidableEq

structure World (β σ : Type) where
  handles : Table (Handle β)
  groups : Table Group
  tasks : Table Task
  schedulers : Table Scheduler
  /-- What happened, each event with its scheduler. -/
  trace : Array (Nat × Event)
  nextIdentity : Nat
  /-- The state that bodies share. -/
  shared : σ

namespace World

variable {β σ : Type}

/-- A world with schedulers of the given limits and nothing else. -/
def initial (limits : List (Option Number)) (shared : σ) : World β σ where
  handles := {}
  groups := {}
  tasks := {}
  schedulers := ⟨(limits.map fun limit => ⟨1, none, limit⟩).toArray⟩
  trace := #[]
  nextIdentity := 0
  shared := shared

def emit (w : World β σ) (s : Nat) (e : Event) : World β σ := { w with trace := w.trace.push (s, e) }

/-- A new identity. -/
def identity (w : World β σ) : Nat × World β σ :=
  (w.nextIdentity, { w with nextIdentity := w.nextIdentity + 1 })

/-- A new coroutine. -/
def spawn (w : World β σ) (name : String) (body : β) (locals : Bindings Value) :
    CoroutineRef × World β σ :=
  (⟨w.handles.size, name⟩, { w with handles := w.handles.push (.create name body locals) })

/-- A new group, which nobody awaits yet. -/
def newGroup (w : World β σ) (members : List CoroutineRef) (returnExceptions : Bool) :
    GroupRef × World β σ :=
  (⟨w.groups.size, members.length⟩,
    { w with groups := w.groups.push ⟨members, returnExceptions, [], none⟩ })

def modifyHandle (w : World β σ) (c : CoroutineRef) (f : Handle β → Handle β) : World β σ :=
  { w with handles := w.handles.modify c.id f }

def modifyGroup (w : World β σ) (g : GroupRef) (f : Group → Group) : World β σ :=
  { w with groups := w.groups.modify g.id f }

def modifyTask (w : World β σ) (t : Nat) (f : Task → Task) : World β σ :=
  { w with tasks := w.tasks.modify t f }

def modifyScheduler (w : World β σ) (s : Nat) (f : Scheduler → Scheduler) : World β σ :=
  { w with schedulers := w.schedulers.modify s f }

def context? (w : World β σ) (s : Nat) : Option RunContext :=
  (w.schedulers.get? s).bind Scheduler.context

/-- Whether a run of the scheduler is in progress; a scheduler that does not exist is never
idle. -/
def isActive (w : World β σ) (s : Nat) : Bool :=
  match w.schedulers.get? s with
  | none => true
  | some x => x.context.isSome

/-- The number of a task in its scheduler. -/
def taskId (w : World β σ) (t : Nat) : Nat := ((w.tasks.get? t).map Task.id).getD 0

/-- Claims a coroutine for a task; a coroutine that does not exist counts as finished. -/
def claim (w : World β σ) (c : CoroutineRef) (task : Nat) : Option Failure × World β σ :=
  match w.handles.get? c.id with
  | none => (some .coroutineReuse, w)
  | some h =>
    match h.claimFailure? with
    | some f => (some f, w)
    | none => (none, w.modifyHandle c (·.ownedBy task))

def release (w : World β σ) (c : CoroutineRef) : World β σ := w.modifyHandle c Handle.released

end World

end Coroutines
