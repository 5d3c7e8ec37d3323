import Coroutines.Value.Basic
import Coroutines.Bindings

/-!
# Coroutine handles

A handle is a state machine around a body: a saved frame, a status, what it awaits and the task
that owns it.  A body continues from the saved frame when it is resumed, until it awaits, returns
or raises.
-/

namespace Coroutines

/-- What a coroutine may wait for. -/
inductive Target where
  | coroutine (c : CoroutineRef)
  | group (g : GroupRef)
  deriving DecidableEq

/-- What a coroutine is resumed with. -/
inductive Input where
  | start
  | value (v : Value)
  | throw (record : Record)

namespace Input

def kind : Input → String
  | .start => "start"
  | .value _ => "value"
  | .throw _ => "throw"

def isStart : Input → Bool
  | .start => true
  | _ => false

end Input

/-- How one resume of a body ends. -/
inductive Step where
  | await (target : Target)
  | ret (value : Value)
  | raise (record : Record)

namespace Step

def kind : Step → String
  | .await _ => "await"
  | .ret _ => "return"
  | .raise _ => "raise"

end Step

/-- How a coroutine or a group ends: with a value or with an exception. -/
abbrev Outcome := Except Record Value

namespace Outcome

def isOk : Outcome → Bool
  | .ok _ => true
  | .error _ => false

/-- The input that hands an outcome to who waits for it. -/
def input : Outcome → Input
  | .ok v => .value v
  | .error r => .throw r

end Outcome

/-- Where a suspended body goes on, and with which local bindings. -/
structure Frame where
  pc : Nat
  locals : Bindings Value

inductive Status where
  | created
  | running
  | suspended
  | completed
  | failed
  deriving DecidableEq, Repr

namespace Status

def name : Status → String
  | .created => "created"
  | .running => "running"
  | .suspended => "suspended"
  | .completed => "completed"
  | .failed => "failed"

def isFinished : Status → Bool
  | .completed | .failed => true
  | _ => false

end Status

/-- A coroutine: its body, described by a `β`, and the state it is in. -/
structure Handle (β : Type) where
  name : String
  body : β
  frame : Frame
  status : Status
  pending : Option Target
  /-- The task that the coroutine belongs to. -/
  owner : Option Nat
  outcome : Option Outcome

namespace Handle

variable {β : Type}

/-- A coroutine that has not been started. -/
def create (name : String) (body : β) (locals : Bindings Value) : Handle β where
  name := name
  body := body
  frame := ⟨0, locals⟩
  status := .created
  pending := none
  owner := none
  outcome := none

/-- Why a handle cannot be claimed: it has finished, or has started or belongs to a task. -/
def claimFailure? (h : Handle β) : Option Failure :=
  if h.status.isFinished then some .coroutineReuse
  else if h.owner.isSome || h.status ≠ .created then some .coroutineBusy
  else none

/-- A coroutine can be claimed if it has not started and belongs to no task. -/
theorem claimFailure?_eq_none_iff {h : Handle β} :
    h.claimFailure? = none ↔ h.status = .created ∧ h.owner = none := by
  cases hs : h.status <;> cases ho : h.owner <;> simp [claimFailure?, hs, ho, Status.isFinished]

/-- The handle as it belongs to a task. -/
def ownedBy (h : Handle β) (task : Nat) : Handle β := { h with owner := some task }

def released (h : Handle β) : Handle β := { h with owner := none }

/-- Why a handle cannot be resumed with an input: it runs, it has finished, or the input is not
one for its status. -/
def refusal? (h : Handle β) (input : Input) : Option Abort :=
  if h.status = .running then some (.raise .coroutineBusy)
  else if h.status.isFinished then some (.raise .coroutineReuse)
  else if input.isStart ≠ (h.status = .created) then
    some (.host s!"Coroutine '{h.name}' cannot take '{input.kind}' input while {h.status.name}.")
  else none

/-- A coroutine takes `start` before it has started, and any other input while it is suspended. -/
theorem refusal?_eq_none_iff {h : Handle β} {input : Input} :
    h.refusal? input = none ↔
      h.status = .created ∧ input.isStart = true ∨ h.status = .suspended ∧ input.isStart = false := by
  cases hs : h.status <;> cases hi : input.isStart <;> simp [refusal?, hs, hi, Status.isFinished]

/-- The handle while its body runs; a body that takes up the result it awaited forgets what it
waited for at once. -/
def entered (h : Handle β) (forgets : Bool) : Handle β :=
  { h with status := .running, pending := if forgets then none else h.pending }

/-- The handle after a resume that ended with a step. -/
def left (h : Handle β) (frame : Frame) : Step → Handle β
  | .await target => { h with frame, status := .suspended, pending := some target }
  | .ret v => { h with frame, status := .completed, pending := none, outcome := some (.ok v) }
  | .raise r => { h with frame, status := .failed, pending := none, outcome := some (.error r) }

/-- The handle after a resume that was broken off by an error of the host. -/
def broken (h : Handle β) : Handle β := { h with status := .failed }

end Handle

end Coroutines
