import Coroutines.Scheduler
import Coroutines.Value.Text

/-!
# Scenarios

Coroutines that follow a written plan, for exercising schedulers: each instruction awaits, gathers,
runs, logs or ends in one of the ways in which a body can end.  Plans may also resume, claim and
release coroutines directly, which the bodies of scripts never do.
-/

namespace Coroutines

inductive Instruction where
  /-- Suspends on the group of a name, or else on the coroutine. -/
  | await (what : String)
  | gather (name : String) (members : List String) (returnExceptions : Bool) (scheduler : Nat)
  | run (what : String) (scheduler : Nat)
  | resume (what : String) (input : Input)
  | claim (what : String) (task : Nat)
  | release (what : String)
  /-- Logs a text, or the last value. -/
  | log (text : Option String)
  | fail (failure : Failure)
  | raise (failure : Failure)
  | hostError (message : String)
  /-- Returns a value, or the last one. -/
  | ret (value : Option Value)

structure Plan where
  name : String
  instructions : List Instruction
  /-- Whether the plan goes on after an exception is thrown into it. -/
  catches : Bool

/-- What the coroutines of a scenario share. -/
structure Scenario where
  coroutines : Bindings CoroutineRef
  groups : Bindings GroupRef
  log : Array String

namespace Scenario

def coroutine (s : Scenario) (name : String) : Except Abort CoroutineRef :=
  match s.coroutines.get? name with
  | some c => .ok c
  | none => .error (.host s!"driver: no coroutine {name}")

def group (s : Scenario) (name : String) : Except Abort GroupRef :=
  match s.groups.get? name with
  | some g => .ok g
  | none => .error (.host s!"driver: no group {name}")

def target (s : Scenario) (name : String) : Except Abort Target :=
  match s.groups.get? name with
  | some g => .ok (.group g)
  | none => (s.coroutine name).map .coroutine

/-- What a plan does. -/
abbrev Work (α : Type) := Action Plan Scenario α

/-- Looks something up in the scenario. -/
def find {α : Type} (f : Scenario → Except Abort α) : Work α := .read fun s => .ofExcept (f s)

/-- The word for the result of a claim. -/
def claimWord : Option Failure → String
  | none => "ok"
  | some .coroutineReuse => "CoroutineReuse"
  | some _ => "CoroutineBusy"

/-- Follows a plan from one instruction on; `last` is the result of the one before. -/
def follow (plan : Plan) (pc : Nat) (last : Value) : List Instruction → Work (Frame × Step)
  | [] => pure (⟨pc, [("last", last)]⟩, .ret .none)
  | i :: rest =>
    let frame : Frame := ⟨pc + 1, [("last", last)]⟩
    match i with
    | .await what => do
      let t ← find (·.target what)
      pure (frame, .await t)
    | .gather name members returnExceptions scheduler => do
      let cs ← find fun s => members.mapM s.coroutine
      .joinAll scheduler cs returnExceptions fun r => do
        let g ← .ofOutcome r
        .modify (fun s => { s with groups := s.groups.set name g }) (follow plan (pc + 1) last rest)
    | .run what scheduler => do
      let c ← find (·.coroutine what)
      .run scheduler c fun r => do
        let v ← .ofOutcome r
        follow plan (pc + 1) v rest
    | .resume what input => do
      let c ← find (·.coroutine what)
      .resume c input fun r => do
        let step ← .ofOutcome r
        follow plan (pc + 1) (.str step.kind) rest
    | .claim what task => do
      let c ← find (·.coroutine what)
      .claim c task fun failure =>
        follow plan (pc + 1) (.str (claimWord failure)) rest
    | .release what => do
      let c ← find (·.coroutine what)
      .release c (follow plan (pc + 1) last rest)
    | .log text =>
      let line := s!"{plan.name}: " ++ text.getD last.repr
      .modify (fun s => { s with log := s.log.push line }) (follow plan (pc + 1) last rest)
    | .fail f => pure (frame, .raise (.ofFailure f))
    | .raise f => .abort (.raise f)
    | .hostError message => .abort (.host message)
    | .ret value => pure (frame, .ret (value.getD last))

/-- Continues a plan with an input, which becomes the last value. -/
def resume (plan : Plan) (frame : Frame) (input : Input) : Work (Frame × Step) :=
  let go (last : Value) := follow plan frame.pc last (plan.instructions.drop frame.pc)
  match input with
  | .start => go ((frame.locals.get? "last").getD .none)
  | .value v => go v
  | .throw r =>
    if plan.catches then .identity fun n => go (.exception n r) else pure (frame, .raise r)

/-- The bodies of a scenario. -/
def bodies : Bodies Plan Scenario where
  resume := resume
  forgets _ := false

/-- A world without plans. -/
def world (limits : List (Option Number)) : World Plan Scenario :=
  .initial limits ⟨[], [], #[]⟩

/-- The world with a coroutine for a plan, which takes the plan's name. -/
def enrol (w : World Plan Scenario) (plan : Plan) : World Plan Scenario :=
  let (c, w) := w.spawn plan.name plan []
  { w with shared := { w.shared with coroutines := w.shared.coroutines.set plan.name c } }

end Scenario

end Coroutines
