import Coroutines.Record

/-!
# What commands ask of their surroundings

A command is a tree of requests: to read and write files, to read the standard input and to print.
Whoever carries it out answers each request, so the commands themselves touch nothing.
-/

namespace Coroutines

/-- What is found at a path. -/
inductive Contents where
  | absent
  /-- Something that cannot be read as text, such as a directory. -/
  | unreadable
  | text (s : String)
  deriving DecidableEq, Repr

/-- Where text is printed: what scripts print is told apart from what commands report. -/
inductive Channel where
  | output
  | error
  | scriptOutput
  | scriptError
  deriving DecidableEq, Repr

/-- The name of a run, and the time of an event of it. -/
structure Stamp where
  runId : String
  time : String

inductive Shell (α : Type) where
  | done (result : Except Abort α)
  | read (path : String) (next : Contents → Shell α)
  /-- Reads the whole standard input. -/
  | input (next : String → Shell α)
  /-- Makes an empty file, or empties one that is there; tells whether it could. -/
  | create (path : String) (next : Bool → Shell α)
  | append (path text : String) (next : Shell α)
  /-- A new name for a run. -/
  | runId (next : String → Shell α)
  /-- The time. -/
  | time (next : String → Shell α)
  | print (channel : Channel) (text : String) (next : Shell α)

namespace Shell

variable {α γ : Type}

def bind : Shell α → (α → Shell γ) → Shell γ
  | .done (.ok a), k => k a
  | .done (.error e), _ => .done (.error e)
  | .read path next, k => .read path fun c => (next c).bind k
  | .input next, k => .input fun s => (next s).bind k
  | .create path next, k => .create path fun b => (next b).bind k
  | .append path text next, k => .append path text (next.bind k)
  | .runId next, k => .runId fun s => (next s).bind k
  | .time next, k => .time fun s => (next s).bind k
  | .print channel text next, k => .print channel text (next.bind k)

instance : Monad Shell where
  pure a := .done (.ok a)
  bind := Shell.bind

/-- Prints a line. -/
def printLine (channel : Channel) (line : String) : Shell Unit :=
  .print channel (line ++ "\n") (pure ())

/-- Prints lines. -/
def printLines (channel : Channel) : List String → Shell Unit
  | [] => pure ()
  | line :: rest => do
    printLine channel line
    printLines channel rest

end Shell

end Coroutines
