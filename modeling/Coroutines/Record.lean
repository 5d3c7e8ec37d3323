import Coroutines.Failure

/-!
# Exception records

A failure together with the frames it passed while unwinding, outermost first, and the ways in
which evaluation ends without a value.
-/

namespace Coroutines

/-- Where a call happened: the source line and the columns of the call in it. -/
structure SourceSite where
  file : String
  /-- Counted from one. -/
  line : Number
  /-- The function that holds the call, or `<module>`. -/
  name : String
  text : String
  startColumn : Number
  endColumn : Number
  deriving DecidableEq

structure CallFrame where
  operation : String
  /-- The kinds of the arguments. -/
  args : List String
  site : SourceSite
  deriving DecidableEq

structure Record where
  failure : Failure
  frames : List CallFrame
  deriving DecidableEq

namespace Record

def ofFailure (f : Failure) : Record := ⟨f, []⟩

/-- The record with one more frame outside the others. -/
def within (r : Record) (frame : CallFrame) : Record := ⟨r.failure, frame :: r.frames⟩

@[simp] theorem failure_within (r : Record) (frame : CallFrame) :
    (r.within frame).failure = r.failure := rfl

@[simp] theorem frames_within (r : Record) (frame : CallFrame) :
    (r.within frame).frames = frame :: r.frames := rfl

end Record

/-- How evaluation ends without a value. -/
inductive Abort where
  /-- An exception of the script. -/
  | script (record : Record)
  /-- An error of the host, which no script and no scheduler catches. -/
  | host (message : String)
  /-- A text beyond the greatest length. -/
  | tooLarge
  /-- A text repeated without end. -/
  | endless (count : Number)
  /-- The means of the host are exhausted: the bound that it sets on nested calls or resumes was reached, a
  call has more arguments than it can take, or there is no end to the items of a value. -/
  | outOfFuel
  deriving DecidableEq

namespace Abort

/-- A script exception without frames. -/
def raise (f : Failure) : Abort := .script (.ofFailure f)

def message : Abort → String
  | .script record => record.failure.describe
  | .host message => message
  | .tooLarge => "Invalid string length"
  | .endless count => s!"Invalid count value: {count.text}"
  | .outOfFuel => "Maximum call stack size exceeded"

end Abort

end Coroutines
