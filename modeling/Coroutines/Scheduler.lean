import Coroutines.Action

/-!
# Running coroutines

A run resumes one task after the other from the head of the ready queue.  A task that awaits a
coroutine takes it into its chain; one that awaits a group leaves the queue until every member has
an outcome.  Runs nest, on different schedulers, and end within a bound that the host sets.
-/

namespace Coroutines

/-- What actions ask of the schedulers. -/
structure Runner (β σ : Type) where
  run : Nat → CoroutineRef → World β σ → Except Abort Value × World β σ
  resume : CoroutineRef → Input → World β σ → Except Abort Step × World β σ

/-- Sets an exception of the script apart from the other ways to end without a value. -/
def splitScript {α : Type} : Except Abort α → Except Abort (Except Record α)
  | .ok a => .ok (.ok a)
  | .error (.script r) => .ok (.error r)
  | .error e => .error e

namespace Action

variable {β σ α : Type}

/-- Carries out an action in a world. -/
def perform (runner : Runner β σ) : Action β σ α → World β σ → Except Abort α × World β σ
  | .done result, w => (result, w)
  | .read next, w => (next w.shared).perform runner w
  | .modify f next, w => next.perform runner { w with shared := f w.shared }
  | .identity next, w =>
    let (n, w) := w.identity
    (next n).perform runner w
  | .spawn name body locals next, w =>
    let (c, w) := w.spawn name body locals
    (next c).perform runner w
  | .joinAll s members returnExceptions next, w =>
    if w.isActive s then
      let (g, w) := w.newGroup members returnExceptions
      (next (.ok g)).perform runner w
    else (next (.error (.ofFailure .noRunningLoop))).perform runner w
  | .run s c next, w =>
    let (result, w) := runner.run s c w
    match splitScript result with
    | .ok r => (next r).perform runner w
    | .error e => (.error e, w)
  | .resume c input next, w =>
    let (result, w) := runner.resume c input w
    match splitScript result with
    | .ok r => (next r).perform runner w
    | .error e => (.error e, w)
  | .claim c task next, w =>
    let (failure, w) := w.claim c task
    (next failure).perform runner w
  | .release c next, w => next.perform runner (w.release c)

end Action

namespace World

variable {β σ : Type}

/-! ### Tasks and the ready queue -/

/-- A new task for a coroutine, which uses up the scheduler's next number. -/
def newTask (w : World β σ) (s : Nat) (c : CoroutineRef) (index : Nat) (group : Option GroupRef) :
    Nat × World β σ :=
  let id := ((w.schedulers.get? s).map Scheduler.nextTask).getD 0
  (w.tasks.size,
    { w.modifyScheduler s (fun x => { x with nextTask := x.nextTask + 1 }) with
      tasks := w.tasks.push ⟨id, index, group, .pending, [c], .start, none⟩ })

def modifyContext (w : World β σ) (s : Nat) (f : RunContext → RunContext) : World β σ :=
  w.modifyScheduler s fun x => { x with context := x.context.map f }

/-- Puts a task at the end of the ready queue. -/
def enqueue (w : World β σ) (s t : Nat) : World β σ :=
  w.modifyContext s fun ctx => { ctx with ready := ctx.ready ++ [t] }

/-- Takes the task at the head of the ready queue. -/
def dequeue (w : World β σ) (s : Nat) : Option (Nat × World β σ) :=
  match w.context? s with
  | none => none
  | some ctx =>
    match ctx.ready with
    | [] => none
    | t :: rest => some (t, w.modifyContext s fun ctx => { ctx with ready := rest })

/-- Gives a suspended task its next input and puts it back into the queue. -/
def deliver (w : World β σ) (s t : Nat) (input : Input) : World β σ :=
  (w.modifyTask t fun x => { x with inbox := input, state := .suspended }).enqueue s t

/-! ### Groups -/

/-- The outcome that a task has, as its group sees it. -/
def taskOutcome? (w : World β σ) (t : Nat) : Option Outcome := (w.tasks.get? t).bind Task.outcome

/-- The number of a group's members. -/
def groupSize (w : World β σ) (g : GroupRef) : Nat :=
  ((w.groups.get? g.id).map (·.handles.length)).getD 0

/-- Whether every member of a group has a task with an outcome. -/
def quiescent (w : World β σ) (g : GroupRef) : Bool :=
  match w.groups.get? g.id with
  | none => false
  | some group =>
    group.tasks.length = group.handles.length && group.tasks.all fun t => (w.taskOutcome? t).isSome

/-- The members' values in order, or the first member's failure; a failure becomes a value, with
the next identity, where exceptions are returned. -/
def gatherOutcomes (returnExceptions : Bool) :
    List Task → (identity : Nat) → Except Abort (Except Record (List Value)) × Nat
  | [], n => (.ok (.ok []), n)
  | t :: rest, n =>
    match t.outcome with
    | none => (.error (.host s!"Join group settled while task {t.index} is {t.state.name}."), n)
    | some (.ok v) =>
      let (more, n) := gatherOutcomes returnExceptions rest n
      (more.map fun values => values.map (v :: ·), n)
    | some (.error r) =>
      if returnExceptions then
        let (more, n') := gatherOutcomes returnExceptions rest (n + 1)
        (more.map fun values => values.map (.exception n r :: ·), n')
      else (.ok (.error r), n)

/-- The outcome of a group whose members all have one. -/
def settle (w : World β σ) (g : GroupRef) : Except Abort Outcome × World β σ :=
  match w.groups.get? g.id with
  | none => (.ok (.ok (.list [])), w)
  | some group =>
    let (result, n) :=
      gatherOutcomes group.returnExceptions (group.tasks.filterMap w.tasks.get?) w.nextIdentity
    (result.map fun values => values.map .list, { w with nextIdentity := n })

/-- Hands the outcome of a group to the task that awaits it. -/
def settleGroup (w : World β σ) (s : Nat) (g : GroupRef) : Except Abort Unit × World β σ :=
  match (w.groups.get? g.id).bind Group.awaitedBy with
  | none => (.ok (), w)
  | some parent =>
    match w.settle g with
    | (.error e, w) => (.error e, w)
    | (.ok outcome, w) =>
      let w := w.modifyTask parent fun x => { x with inbox := outcome.input }
      let w := w.emit s (.joinEnd (w.taskId parent) outcome.isOk)
      (.ok (), w.enqueue s parent)

/-- Settles a group if no member is without an outcome. -/
def closeGroup (w : World β σ) (s : Nat) (g : GroupRef) : Except Abort Unit × World β σ :=
  if w.quiescent g then w.settleGroup s g else (.ok (), w)

/-- A new task for a member of a group. -/
def addMember (w : World β σ) (s : Nat) (g : GroupRef) (index : Nat) (c : CoroutineRef) :
    Nat × World β σ :=
  let (t, w) := w.newTask s c index (some g)
  let w := w.modifyGroup g fun x => { x with tasks := x.tasks ++ [t] }
  (t, w.emit s (.taskSpawn (w.taskId t) index c.name))

/-- Gives a member of a group its task, which fails at once where the member cannot be claimed. -/
def startMember (w : World β σ) (s : Nat) (g : GroupRef) (index : Nat) (c : CoroutineRef) :
    World β σ :=
  let (t, w) := w.addMember s g index c
  match w.claim c (w.taskId t) with
  | (some f, w) =>
    w.modifyTask t fun x =>
      { x with chain := [], state := .failed, outcome := some (.error (.ofFailure f)) }
  | (none, w) => w.enqueue s t

def startMembers (w : World β σ) (s : Nat) (g : GroupRef) (index : Nat) :
    List CoroutineRef → World β σ
  | [] => w
  | c :: rest => (w.startMember s g index c).startMembers s g (index + 1) rest

/-- Starts a group for the task that awaits it. -/
def startGroup (w : World β σ) (s parent : Nat) (g : GroupRef) : Except Abort Unit × World β σ :=
  let w := w.modifyGroup g fun x => { x with awaitedBy := some parent }
  let w := w.emit s (.joinStart (w.taskId parent) (w.groupSize g))
  (w.startMembers s g 0 (((w.groups.get? g.id).map Group.handles).getD [])).closeGroup s g

/-! ### One step -/

/-- Whether a group cannot be awaited any more; a group that does not exist counts as awaited. -/
def groupTaken (w : World β σ) (g : GroupRef) : Bool :=
  match w.groups.get? g.id with
  | none => true
  | some group => group.awaitedBy.isSome

/-- Lets a task wait for a target.  A target that is taken is refused with an exception. -/
def suspend (w : World β σ) (s t : Nat) (target : Target) : Except Abort Unit × World β σ :=
  let w := w.modifyTask t fun x => { x with state := .suspended }
  match target with
  | .group g =>
    if w.groupTaken g then (.ok (), w.deliver s t (.throw (.ofFailure .groupAwaited)))
    else w.startGroup s t g
  | .coroutine c =>
    let (failure, w) := w.claim c (w.taskId t)
    let w := w.modifyTask t fun x =>
      match failure with
      | some f => { x with inbox := .throw (.ofFailure f) }
      | none => { x with chain := c :: x.chain }
    (.ok (), (w.emit s (.taskSuspend (w.taskId t) c.name)).enqueue s t)

/-- Ends a task, and settles its group if it was the last member without an outcome. -/
def finish (w : World β σ) (s t : Nat) (outcome : Outcome) : Except Abort Unit × World β σ :=
  let w := w.modifyTask t (·.ended outcome)
  match w.tasks.get? t with
  | none => (.ok (), w)
  | some task =>
    let w := w.emit s (.taskEnd task.id task.index outcome.isOk)
    match task.group with
    | none => (.ok (), w)
    | some g => w.closeGroup s g

/-- Takes the coroutine that has ended off the chain of its task and hands its outcome to the next
one, or ends the task. -/
def unwind (w : World β σ) (s t : Nat) (top : CoroutineRef) (outcome : Outcome) :
    Except Abort Unit × World β σ :=
  let w := (w.modifyTask t fun x => { x with chain := x.chain.tail }).release top
  if ((w.tasks.get? t).map fun x => x.chain.isEmpty).getD true then w.finish s t outcome
  else (.ok (), w.deliver s t outcome.input)

/-- The limit that the steps of a run exceed. -/
def exceeded? (w : World β σ) (s : Nat) : Option Number :=
  match w.schedulers.get? s with
  | some ⟨_, some ctx, some limit⟩ => if Number.exceededBy ctx.steps limit then some limit else none
  | _ => none

/-- Takes a task up: counts a resume, and gives the coroutine to resume with its input. -/
def takeUp (w : World β σ) (s t : Nat) :
    Except Abort (Option (CoroutineRef × Input)) × World β σ :=
  match w.tasks.get? t with
  | none => (.ok none, w)
  | some task =>
    match task.chain with
    | [] => (.ok none, w)
    | top :: _ =>
      let w := w.modifyContext s fun ctx => { ctx with steps := ctx.steps + 1 }
      match w.exceeded? s with
      | some limit => (.error (.raise (.budget limit)), w.emit s (.budgetExceeded limit))
      | none =>
        (.ok (some (top, task.inbox)),
          w.modifyTask t fun x => { x with state := .running, inbox := .start })

/-- Lets a task go on from the step that the resume of its coroutine ended with. -/
def absorb (w : World β σ) (s t : Nat) (top : CoroutineRef) :
    Step → Except Abort Unit × World β σ
  | .await target => w.suspend s t target
  | .ret v => w.unwind s t top (.ok v)
  | .raise r => w.unwind s t top (.error r)

/-- Resumes a task. -/
def step (resume : CoroutineRef → Input → World β σ → Except Abort Step × World β σ)
    (w : World β σ) (s t : Nat) : Except Abort Unit × World β σ :=
  match w.takeUp s t with
  | (.error e, w) => (.error e, w)
  | (.ok none, w) => (.ok (), w)
  | (.ok (some (top, input)), w) =>
    match resume top input w with
    | (.error e, w) => (.error e, w)
    | (.ok step, w) => w.absorb s t top step

/-! ### Runs -/

/-- Steps until the ready queue is empty. -/
def drain (resume : CoroutineRef → Input → World β σ → Except Abort Step × World β σ) (s : Nat) :
    (fuel : Nat) → World β σ → Except Abort Unit × World β σ
  | 0, w => (.error .outOfFuel, w)
  | fuel + 1, w =>
    match w.dequeue s with
    | none => (.ok (), w)
    | some (t, w) =>
      match w.step resume s t with
      | (.ok (), w) => drain resume s fuel w
      | (.error e, w) => (.error e, w)

/-- What a run gives once its queue is empty. -/
def conclude (w : World β σ) (s root : Nat) (c : CoroutineRef) : Except Abort Value × World β σ :=
  match w.taskOutcome? root with
  | none => (.error (.host s!"Scheduler stalled: root task '{c.name}' can make no progress."), w)
  | some outcome =>
    let w := w.emit s (.runEnd outcome.isOk (((w.context? s).map RunContext.steps).getD 0))
    (outcome.mapError .script, w)

def activate (w : World β σ) (s root : Nat) : World β σ :=
  w.modifyScheduler s fun x => { x with context := some ⟨root, [root], 0⟩ }

def deactivate (w : World β σ) (s : Nat) : World β σ :=
  w.modifyScheduler s fun x => { x with context := none }

/-- Starts a run of a coroutine: gives it a root task, which is the first to be resumed. -/
def start (w : World β σ) (s : Nat) (c : CoroutineRef) : Except Abort Nat × World β σ :=
  if w.isActive s then (.error (.raise .nestedRun), w)
  else
    let (root, w) := w.newTask s c 0 none
    match w.claim c (w.taskId root) with
    | (some f, w) => (.error (.raise f), w)
    | (none, w) => (.ok root, (w.activate s root).emit s (.runStart c.name))

/-- Runs a coroutine to its end, at most `fuel` steps.  However a run ends, its scheduler is idle
and its root coroutine released. -/
def runWith (resume : CoroutineRef → Input → World β σ → Except Abort Step × World β σ)
    (fuel : Nat) (s : Nat) (c : CoroutineRef) (w : World β σ) : Except Abort Value × World β σ :=
  match w.start s c with
  | (.error e, w) => (.error e, w)
  | (.ok root, w) =>
    let (result, w) :=
      match drain resume s fuel w with
      | (.ok (), w) => w.conclude s root c
      | (.error e, w) => (.error e, w)
    (result, (w.release c).deactivate s)

/-- Lets a coroutine take up an input: gives what it does next with it and the frame it leaves, or
why it refuses. -/
def enter (bodies : Bodies β σ) (w : World β σ) (c : CoroutineRef) (input : Input) :
    Except Abort (Frame × Action β σ (Frame × Step)) × World β σ :=
  match w.handles.get? c.id with
  | none => (.error (.raise .coroutineReuse), w)
  | some h =>
    match h.refusal? input with
    | some e => (.error e, w)
    | none =>
      (.ok (h.frame, bodies.resume h.body h.frame input),
        w.modifyHandle c (·.entered (!input.isStart && bodies.forgets h.body)))

/-- Lets a coroutine leave off, with how its body ended; an exception of the script keeps the frame
that the body entered with. -/
def leave (w : World β σ) (c : CoroutineRef) (frame : Frame) :
    Except Abort (Frame × Step) → Except Abort Step × World β σ
  | .ok (frame, step) => (.ok step, w.modifyHandle c (·.left frame step))
  | .error (.script r) => (.ok (.raise r), w.modifyHandle c (·.left frame (.raise r)))
  | .error e => (.error e, w.modifyHandle c Handle.broken)

/-- Resumes a coroutine whose body is carried out by `perform`. -/
def resumeWith (bodies : Bodies β σ)
    (perform : Action β σ (Frame × Step) → World β σ → Except Abort (Frame × Step) × World β σ)
    (c : CoroutineRef) (input : Input) (w : World β σ) : Except Abort Step × World β σ :=
  match w.enter bodies c input with
  | (.error e, w) => (.error e, w)
  | (.ok (frame, action), w) =>
    let (result, w) := perform action w
    w.leave c frame result

/-- Resumes a coroutine; runs inside its body nest at most `fuel` deep. -/
def resume (bodies : Bodies β σ) :
    (fuel : Nat) → CoroutineRef → Input → World β σ → Except Abort Step × World β σ
  | 0, _, _, w => (.error .outOfFuel, w)
  | fuel + 1, c, input, w =>
    w.resumeWith bodies
      (Action.perform
        ⟨fun s c w => w.runWith (resume bodies fuel) fuel s c, fun c i w => resume bodies fuel c i w⟩)
      c input

/-- Runs a coroutine to its end. -/
def run (bodies : Bodies β σ) (fuel : Nat) (s : Nat) (c : CoroutineRef) (w : World β σ) :
    Except Abort Value × World β σ :=
  w.runWith (resume bodies fuel) fuel s c

/-- What actions ask of the schedulers, for bodies and a bound. -/
def runner (bodies : Bodies β σ) (fuel : Nat) : Runner β σ where
  run := fun s c w => w.run bodies fuel s c
  resume := fun c input w => w.resume bodies fuel c input

/-- Carries out an action outside any body. -/
def perform {α : Type} (bodies : Bodies β σ) (fuel : Nat) (action : Action β σ α) (w : World β σ) :
    Except Abort α × World β σ :=
  action.perform (runner bodies fuel) w

end World

end Coroutines
