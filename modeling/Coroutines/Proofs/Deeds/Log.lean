import Coroutines.Scheduler

/-!
# The log of an execution

Everything that is done with coroutines and by runs while an action is carried out, in order
(`Action.deeds`).  The log only watches: each function of this file goes through the same worlds as
the operation that it watches and notes what happens there.  A call on a coroutine is noted with the
row of the coroutine before and after it; the calls that a body makes stand between its entry and its
leaving.
-/

namespace Coroutines

/-- What is done with a coroutine: it is made, asked for by a task, released, resumed with an input that
it refuses, or entered with an input and, when its body is over, left. -/
inductive Act where
  | make
  | claim (task : Nat) (refusal : Option Failure)
  | release
  | refuse (input : Input) (reason : Abort)
  | enter (input : Input)
  | leave (result : Except Abort (Frame × Step))

/-- One call on a coroutine, with the row of the coroutine before and after it. -/
structure Call (β : Type) where
  /-- The number of the row. -/
  row : Nat
  act : Act
  before : Option (Handle β)
  after : Option (Handle β)

inductive Deed (β : Type) where
  | call (c : Call β)
  /-- A run of a coroutine begins. -/
  | begin (s : Nat) (c : CoroutineRef)
  /-- A run has resumed a coroutine, up to a step. -/
  | turn (s : Nat) (c : CoroutineRef) (step : Step)
  /-- A group of so many members is started. -/
  | join (s size : Nat)
  /-- A run has come to its end. -/
  | conclude (s : Nat) (ok : Bool)

/-- The calls on one coroutine. -/
def calls {β : Type} (i : Nat) (log : List (Deed β)) : List (Call β) :=
  log.filterMap fun
    | .call c => if c.row = i then some c else none
    | _ => none

/-- What a log says of the requests that actions make. -/
structure Watch (β σ : Type) where
  run : Nat → CoroutineRef → World β σ → List (Deed β)
  resume : CoroutineRef → Input → World β σ → List (Deed β)

namespace World

variable {β σ : Type}

/-! ### Single calls -/

/-- A call that leads from one world to another. -/
def callDeed (w : World β σ) (c : CoroutineRef) (act : Act) (w' : World β σ) : Deed β :=
  .call ⟨c.id, act, w.handles.get? c.id, w'.handles.get? c.id⟩

def makeDeed (w : World β σ) (name : String) (body : β) (locals : Bindings Value) : Deed β :=
  w.callDeed (w.spawn name body locals).1 .make (w.spawn name body locals).2

def claimDeed (w : World β σ) (c : CoroutineRef) (task : Nat) : Deed β :=
  w.callDeed c (.claim task (w.claim c task).1) (w.claim c task).2

def releaseDeed (w : World β σ) (c : CoroutineRef) : Deed β := w.callDeed c .release (w.release c)

/-! ### Steps of a run -/

def memberDeeds (w : World β σ) (s : Nat) (g : GroupRef) (index : Nat) :
    List CoroutineRef → List (Deed β)
  | [] => []
  | c :: rest =>
    let (t, w') := w.addMember s g index c
    w'.claimDeed c (w'.taskId t) :: (w.startMember s g index c).memberDeeds s g (index + 1) rest

def groupDeeds (w : World β σ) (s parent : Nat) (g : GroupRef) : List (Deed β) :=
  let w := w.modifyGroup g fun x => { x with awaitedBy := some parent }
  let w := w.emit s (.joinStart (w.taskId parent) (w.groupSize g))
  .join s (w.groupSize g) :: w.memberDeeds s g 0 (((w.groups.get? g.id).map Group.handles).getD [])

def suspendDeeds (w : World β σ) (s t : Nat) (target : Target) : List (Deed β) :=
  let w := w.modifyTask t fun x => { x with state := .suspended }
  match target with
  | .group g => if w.groupTaken g then [] else w.groupDeeds s t g
  | .coroutine c => [w.claimDeed c (w.taskId t)]

def absorbDeeds (w : World β σ) (s t : Nat) (top : CoroutineRef) : Step → List (Deed β)
  | .await target => w.suspendDeeds s t target
  | .ret _ | .raise _ => [(w.modifyTask t fun x => { x with chain := x.chain.tail }).releaseDeed top]

section

variable (resume : CoroutineRef → Input → World β σ → Except Abort Step × World β σ)
  (watch : CoroutineRef → Input → World β σ → List (Deed β))

def turnDeeds (w : World β σ) (s t : Nat) : List (Deed β) :=
  match w.takeUp s t with
  | (.ok (some (top, input)), w) =>
    match resume top input w with
    | (.ok step, w') => watch top input w ++ .turn s top step :: w'.absorbDeeds s t top step
    | (.error _, _) => watch top input w
  | _ => []

def drainDeeds (s : Nat) : (fuel : Nat) → World β σ → List (Deed β)
  | 0, _ => []
  | fuel + 1, w =>
    match w.dequeue s with
    | none => []
    | some (t, w) =>
      match w.step resume s t with
      | (.ok (), w') => w.turnDeeds resume watch s t ++ drainDeeds s fuel w'
      | (.error _, _) => w.turnDeeds resume watch s t

end

/-! ### Runs -/

def startDeeds (w : World β σ) (s : Nat) (c : CoroutineRef) : List (Deed β) :=
  if w.isActive s then []
  else
    let (root, w) := w.newTask s c 0 none
    match w.claim c (w.taskId root) with
    | (some _, _) => [w.claimDeed c (w.taskId root)]
    | (none, _) => [w.claimDeed c (w.taskId root), .begin s c]

def concludeDeeds (w : World β σ) (s root : Nat) : List (Deed β) :=
  match w.taskOutcome? root with
  | none => []
  | some outcome => [.conclude s outcome.isOk]

def runDeeds (resume : CoroutineRef → Input → World β σ → Except Abort Step × World β σ)
    (watch : CoroutineRef → Input → World β σ → List (Deed β))
    (fuel : Nat) (s : Nat) (c : CoroutineRef) (w : World β σ) : List (Deed β) :=
  match w.start s c with
  | (.error _, _) => w.startDeeds s c
  | (.ok root, w₁) =>
    w.startDeeds s c ++ drainDeeds resume watch s fuel w₁ ++
      match drain resume s fuel w₁ with
      | (.ok (), w₂) => w₂.concludeDeeds s root ++ [(w₂.conclude s root c).2.releaseDeed c]
      | (.error _, w₂) => [w₂.releaseDeed c]

end World

/-- What is done while an action is carried out. -/
def Action.deeds {β σ α : Type} (runner : Runner β σ) (watch : Watch β σ) :
    Action β σ α → World β σ → List (Deed β)
  | .done _, _ => []
  | .read next, w => (next w.shared).deeds runner watch w
  | .modify f next, w => next.deeds runner watch { w with shared := f w.shared }
  | .identity next, w =>
    let (n, w) := w.identity
    (next n).deeds runner watch w
  | .spawn name body locals next, w =>
    let (c, w') := w.spawn name body locals
    w.makeDeed name body locals :: (next c).deeds runner watch w'
  | .joinAll s members returnExceptions next, w =>
    if w.isActive s then
      let (g, w) := w.newGroup members returnExceptions
      (next (.ok g)).deeds runner watch w
    else (next (.error (.ofFailure .noRunningLoop))).deeds runner watch w
  | .run s c next, w =>
    let (result, w') := runner.run s c w
    match splitScript result with
    | .ok r => watch.run s c w ++ (next r).deeds runner watch w'
    | .error _ => watch.run s c w
  | .resume c input next, w =>
    let (result, w') := runner.resume c input w
    match splitScript result with
    | .ok r => watch.resume c input w ++ (next r).deeds runner watch w'
    | .error _ => watch.resume c input w
  | .claim c task next, w =>
    let (failure, w') := w.claim c task
    w.claimDeed c task :: (next failure).deeds runner watch w'
  | .release c next, w => w.releaseDeed c :: next.deeds runner watch (w.release c)

namespace World

variable {β σ : Type}

/-- What is done while a coroutine is resumed; at the bound on nested bodies, nothing. -/
def resumeDeeds (bodies : Bodies β σ) :
    (fuel : Nat) → CoroutineRef → Input → World β σ → List (Deed β)
  | 0, _, _, _ => []
  | fuel + 1, c, input, w =>
    match w.enter bodies c input with
    | (.error reason, w') => [w.callDeed c (.refuse input reason) w']
    | (.ok (frame, action), w₁) =>
      let (result, w₂) := action.perform (runner bodies fuel) w₁
      w.callDeed c (.enter input) w₁ ::
        action.deeds (runner bodies fuel)
          ⟨fun s c w => w.runDeeds (resume bodies fuel) (resumeDeeds bodies fuel) fuel s c,
            fun c input w => resumeDeeds bodies fuel c input w⟩ w₁ ++
        [w₂.callDeed c (.leave result) (w₂.leave c frame result).2]

/-- What is done while the requests of actions are met, for bodies and a bound. -/
def watch (bodies : Bodies β σ) (fuel : Nat) : Watch β σ where
  run := fun s c w => w.runDeeds (resume bodies fuel) (resumeDeeds bodies fuel) fuel s c
  resume := resumeDeeds bodies fuel

/-- What is done while an action is carried out outside any body. -/
def deeds {α : Type} (bodies : Bodies β σ) (fuel : Nat) (action : Action β σ α) (w : World β σ) :
    List (Deed β) :=
  action.deeds (runner bodies fuel) (watch bodies fuel) w

/-- The deeds of actions that are carried out one after the other, and the world that they lead to. -/
inductive Records (bodies : Bodies β σ) (w : World β σ) : List (Deed β) → World β σ → Prop
  | refl : Records bodies w [] w
  | more {log : List (Deed β)} {w' : World β σ} (h : Records bodies w log w') {α : Type}
      (fuel : Nat) (action : Action β σ α) :
      Records bodies w (log ++ w'.deeds bodies fuel action) (w'.perform bodies fuel action).2

end World

end Coroutines
