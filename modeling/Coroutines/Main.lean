import Coroutines.Command.Arguments
import Coroutines.Trace.Instant
import Std.Time.DateTime.Timestamp

/-!
# The program

Carries out a command on the real files, streams and clock.
-/

namespace Coroutines

/-- A directory to resolve relative paths against. -/
def currentPlaces : IO Places := do
  let home ← IO.getEnv "HOME"
  pure ⟨(← IO.currentDir).toString, home.getD ""⟩

def readContents (path : String) : IO Contents := do
  try
    let s ← IO.FS.readFile path
    pure (.text s)
  catch
    | .noFileOrDirectory .. => pure .absent
    | _ => pure .unreadable

/-- The rest of a stream. -/
partial def readAll (stream : IO.FS.Stream) (text : String) : IO String := do
  let line ← stream.getLine
  if line.isEmpty then pure text else readAll stream (text ++ line)

def succeeds (action : IO Unit) : IO Bool := do
  try
    action
    pure true
  catch _ => pure false

/-- A random identity of version 4 and variant 1, as groups of digits of base sixteen. -/
def randomId : IO String := do
  let random ← IO.getRandomBytes 16
  let bytes := (random.toList.map UInt8.toNat).mapIdx fun i b =>
    if i = 6 then 0x40 + b % 0x10 else if i = 8 then 0x80 + b % 0x40 else b
  let digits := bytes.flatMap fun b => [Json.hexDigit (b / 16), Json.hexDigit (b % 16)]
  let groups := [digits.take 8, (digits.drop 8).take 4, (digits.drop 12).take 4,
    (digits.drop 16).take 4, digits.drop 20]
  pure ("-".intercalate (groups.map String.ofList))

/-- The milliseconds since the start of 1970. -/
def now : IO Int := do
  let time ← Std.Time.Timestamp.now
  pure time.toMillisecondsSinceUnixEpoch.val

/-- Prints a text at once. -/
def printText (channel : Channel) (text : String) : IO Unit := do
  let stream ← match channel with
    | .output | .scriptOutput => IO.getStdout
    | .error | .scriptError => IO.getStderr
  stream.putStr text
  stream.flush

/-- Carries out a command. -/
def Shell.toIO {α : Type} : Shell α → IO (Except Abort α)
  | .done result => pure result
  | .read path next => do (next (← readContents path)).toIO
  | .input next => do (next (← readAll (← IO.getStdin) "")).toIO
  | .create path next => do (next (← succeeds (IO.FS.writeFile path ""))).toIO
  | .append path text next => do
    let handle ← IO.FS.Handle.mk path .append
    handle.putStr text
    next.toIO
  | .runId next => do (next (← randomId)).toIO
  | .time next => do (next (Instant.text (← now))).toIO
  | .print channel text next => do
    printText channel text
    next.toIO

end Coroutines

open Coroutines in
def main (words : List String) : IO UInt32 := do
  match ← (Command.main (← currentPlaces) words).toIO with
  | .ok code => pure code.toUInt32
  | .error e => do
    printText .error (e.message ++ "\n")
    pure 1
