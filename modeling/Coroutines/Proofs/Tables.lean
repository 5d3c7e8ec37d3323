import Coroutines.Scheduler

/-!
# What the operations change

Each operation on a world touches few of its tables.  The lemmas say which row of which table an
operation changes, and that it leaves the rest alone.
-/

namespace Coroutines

namespace Table

variable {α : Type}

theorem get?_eq_none_iff {t : Table α} {i : Nat} : t.get? i = none ↔ t.size ≤ i := by
  simp [get?, size]

theorem get?_size (t : Table α) : t.get? t.size = none := get?_eq_none_iff.mpr (Nat.le_refl _)

theorem ne_size_of_get? {t : Table α} {i : Nat} {a : α} (h : t.get? i = some a) : i ≠ t.size :=
  Nat.ne_of_lt (lt_size_of_get? h)

theorem exists_get? {t : Table α} {i : Nat} (h : i < t.size) : ∃ a, t.get? i = some a :=
  Option.ne_none_iff_exists'.mp fun e => Nat.not_le_of_lt h (get?_eq_none_iff.mp e)

/-- A new row leaves the rows that exist. -/
theorem get?_push_of_some {t : Table α} {i : Nat} {a b : α} (h : t.get? i = some a) :
    (t.push b).get? i = some a := by
  rw [get?_push, if_neg (ne_size_of_get? h), h]

end Table

namespace World

variable {β σ : Type} (w : World β σ)

/-! ### Changes of one row -/

section

variable (s : Nat) (e : Event)

@[simp] theorem handles_emit : (w.emit s e).handles = w.handles := rfl
@[simp] theorem groups_emit : (w.emit s e).groups = w.groups := rfl
@[simp] theorem tasks_emit : (w.emit s e).tasks = w.tasks := rfl
@[simp] theorem schedulers_emit : (w.emit s e).schedulers = w.schedulers := rfl
@[simp] theorem context?_emit (s' : Nat) : (w.emit s e).context? s' = w.context? s' := rfl

end

section

variable (c : CoroutineRef) (f : Handle β → Handle β)

@[simp] theorem groups_modifyHandle : (w.modifyHandle c f).groups = w.groups := rfl
@[simp] theorem tasks_modifyHandle : (w.modifyHandle c f).tasks = w.tasks := rfl
@[simp] theorem schedulers_modifyHandle : (w.modifyHandle c f).schedulers = w.schedulers := rfl
@[simp] theorem context?_modifyHandle (s : Nat) :
    (w.modifyHandle c f).context? s = w.context? s := rfl

theorem get?_handles_modifyHandle (i : Nat) : (w.modifyHandle c f).handles.get? i =
    if c.id = i then (w.handles.get? i).map f else w.handles.get? i := Table.get?_modify ..

theorem get?_handles_modifyHandle_of_ne {i : Nat} {x : Handle β} (hi : i ≠ c.id)
    (hx : w.handles.get? i = some x) : (w.modifyHandle c f).handles.get? i = some x :=
  (get?_handles_modifyHandle ..).trans ((if_neg (Ne.symm hi)).trans hx)

end

section

variable (g : GroupRef) (f : Group → Group)

@[simp] theorem handles_modifyGroup : (w.modifyGroup g f).handles = w.handles := rfl
@[simp] theorem tasks_modifyGroup : (w.modifyGroup g f).tasks = w.tasks := rfl
@[simp] theorem schedulers_modifyGroup : (w.modifyGroup g f).schedulers = w.schedulers := rfl
@[simp] theorem context?_modifyGroup (s : Nat) :
    (w.modifyGroup g f).context? s = w.context? s := rfl

theorem get?_groups_modifyGroup (i : Nat) : (w.modifyGroup g f).groups.get? i =
    if g.id = i then (w.groups.get? i).map f else w.groups.get? i := Table.get?_modify ..

end

section

variable (t : Nat) (f : Task → Task)

@[simp] theorem handles_modifyTask : (w.modifyTask t f).handles = w.handles := rfl
@[simp] theorem groups_modifyTask : (w.modifyTask t f).groups = w.groups := rfl
@[simp] theorem schedulers_modifyTask : (w.modifyTask t f).schedulers = w.schedulers := rfl
@[simp] theorem context?_modifyTask (s : Nat) :
    (w.modifyTask t f).context? s = w.context? s := rfl
@[simp] theorem size_tasks_modifyTask : (w.modifyTask t f).tasks.size = w.tasks.size :=
  Table.size_modify ..

theorem get?_tasks_modifyTask (u : Nat) : (w.modifyTask t f).tasks.get? u =
    if t = u then (w.tasks.get? u).map f else w.tasks.get? u := Table.get?_modify ..

end

section

variable (s : Nat) (f : Scheduler → Scheduler)

@[simp] theorem handles_modifyScheduler : (w.modifyScheduler s f).handles = w.handles := rfl
@[simp] theorem groups_modifyScheduler : (w.modifyScheduler s f).groups = w.groups := rfl
@[simp] theorem tasks_modifyScheduler : (w.modifyScheduler s f).tasks = w.tasks := rfl

theorem context?_modifyScheduler (s' : Nat) : (w.modifyScheduler s f).context? s' =
    if s = s' then (w.schedulers.get? s').bind fun x => (f x).context else w.context? s' := by
  simp only [context?, modifyScheduler, Table.get?_modify]
  split
  · rw [Option.bind_map]
    rfl
  · rfl

end

section

variable (s : Nat) (f : RunContext → RunContext)

@[simp] theorem handles_modifyContext : (w.modifyContext s f).handles = w.handles := rfl
@[simp] theorem groups_modifyContext : (w.modifyContext s f).groups = w.groups := rfl
@[simp] theorem tasks_modifyContext : (w.modifyContext s f).tasks = w.tasks := rfl

theorem context?_modifyContext (s' : Nat) : (w.modifyContext s f).context? s' =
    if s = s' then (w.context? s').map f else w.context? s' := by
  rw [modifyContext, context?_modifyScheduler]
  split
  · rw [context?, Option.map_bind]
    rfl
  · rfl

end

section

variable {w} {w' : World β σ} (h : w'.schedulers = w.schedulers) (s : Nat)
include h

theorem context?_of_schedulers : w'.context? s = w.context? s := by
  rw [context?, context?, h]

theorem isActive_of_schedulers : w'.isActive s = w.isActive s := by
  rw [isActive, isActive, h]

end

/-! ### Queues -/

section

variable (s t : Nat) (input : Input)

@[simp] theorem handles_enqueue : (w.enqueue s t).handles = w.handles := rfl
@[simp] theorem groups_enqueue : (w.enqueue s t).groups = w.groups := rfl
@[simp] theorem tasks_enqueue : (w.enqueue s t).tasks = w.tasks := rfl

theorem context?_enqueue (s' : Nat) : (w.enqueue s t).context? s' =
    if s = s' then (w.context? s').map fun ctx => { ctx with ready := ctx.ready ++ [t] }
    else w.context? s' := context?_modifyContext ..

@[simp] theorem handles_deliver : (w.deliver s t input).handles = w.handles := rfl
@[simp] theorem groups_deliver : (w.deliver s t input).groups = w.groups := rfl

theorem context?_deliver (s' : Nat) : (w.deliver s t input).context? s' =
    if s = s' then (w.context? s').map fun ctx => { ctx with ready := ctx.ready ++ [t] }
    else w.context? s' := context?_modifyContext ..

theorem get?_tasks_deliver (u : Nat) : (w.deliver s t input).tasks.get? u =
    if t = u then (w.tasks.get? u).map fun x => { x with inbox := input, state := .suspended }
    else w.tasks.get? u := get?_tasks_modifyTask ..

end

variable {w}

/-! ### Rows that are there -/

theorem get?_modifyHandle_self {c : CoroutineRef} {x : Handle β} (hx : w.handles.get? c.id = some x)
    (f : Handle β → Handle β) : (w.modifyHandle c f).handles.get? c.id = some (f x) :=
  (get?_handles_modifyHandle ..).trans ((if_pos rfl).trans (congrArg (Option.map f) hx))

theorem get?_modifyHandle_of_get? {top : CoroutineRef} {y : Handle β}
    (hy : w.handles.get? top.id = some y) (f : Handle β → Handle β) (i : Nat) :
    (w.modifyHandle top f).handles.get? i = if top.id = i then some (f y) else w.handles.get? i := by
  rw [get?_handles_modifyHandle]
  split
  · next e => rw [← e, hy, Option.map_some]
  · rfl

theorem get?_modifyTask_of_get? {t : Nat} {x : Task} (hx : w.tasks.get? t = some x)
    (f : Task → Task) (u : Nat) :
    (w.modifyTask t f).tasks.get? u = if u = t then some (f x) else w.tasks.get? u := by
  rw [get?_tasks_modifyTask]
  by_cases e : u = t
  · rw [if_pos e.symm, if_pos e, e, hx, Option.map_some]
  · rw [if_neg (Ne.symm e), if_neg e]

/-- A task whose row alone is new may change again. -/
theorem get?_modifyTask_of_rows {v : World β σ} {t : Nat} {x : Task}
    (hrow : ∀ u, v.tasks.get? u = if u = t then some x else w.tasks.get? u) (f : Task → Task)
    (u : Nat) :
    (v.modifyTask t f).tasks.get? u = if u = t then some (f x) else w.tasks.get? u := by
  rw [get?_modifyTask_of_get? ((hrow t).trans (if_pos rfl)), hrow]
  split <;> rfl

/-- A coroutine that has ended and was released. -/
theorem get?_release_modifyHandle {top : CoroutineRef} {y : Handle β}
    (hy : w.handles.get? top.id = some y) (f : Handle β → Handle β) (i : Nat) :
    ((w.modifyHandle top f).release top).handles.get? i =
      if top.id = i then some (f y).released else w.handles.get? i := by
  rw [release, get?_modifyHandle_of_get? (y := f y)]
  · split
    · rfl
    · next e => rw [get?_modifyHandle_of_get? hy, if_neg e]
  · rw [get?_modifyHandle_of_get? hy, if_pos rfl]

/-! ### Runs that are there -/

/-- A queue grows in the run that it had before. -/
theorem root_of_enqueue {s t s' : Nat} {ctx' : RunContext}
    (h : (w.enqueue s t).context? s' = some ctx') :
    ∃ ctx, w.context? s' = some ctx ∧ ctx.root = ctx'.root := by
  rw [context?_enqueue] at h
  split at h
  · obtain ⟨ctx, hc, rfl⟩ := Option.map_eq_some_iff.mp h
    exact ⟨ctx, hc, rfl⟩
  · exact ⟨ctx', h, rfl⟩

theorem root_enqueue {s t s' : Nat} {ctx : RunContext} (h : w.context? s' = some ctx) :
    ∃ ctx', (w.enqueue s t).context? s' = some ctx' ∧ ctx'.root = ctx.root := by
  rw [context?_enqueue, h]
  split
  · exact ⟨_, rfl, rfl⟩
  · exact ⟨ctx, rfl, rfl⟩

/-- A scheduler that is not active exists and has no run in progress. -/
theorem idle_of_isActive {s : Nat} (h : w.isActive s = false) :
    (∃ x, w.schedulers.get? s = some x) ∧ w.context? s = none := by
  unfold isActive at h
  split at h
  · cases h
  · next x hx => exact ⟨⟨x, hx⟩, by simpa [context?, hx] using h⟩

theorem start_of_active {s : Nat} (h : w.isActive s = true) (c : CoroutineRef) :
    w.start s c = (.error (.raise .nestedRun), w) := by
  simp only [start, h, if_true]

/-- A run of a scheduler that is in a run is refused. -/
theorem run_of_active {s : Nat} (h : w.isActive s = true) (bodies : Bodies β σ) (fuel : Nat) (c : CoroutineRef) :
    w.run bodies fuel s c = (.error (.raise .nestedRun), w) := by
  simp only [run, runWith, start_of_active h]

theorem taskId_of_get? {t : Nat} {x : Task} (h : w.tasks.get? t = some x) : w.taskId t = x.id := by
  simp [taskId, h]

theorem taskOutcome?_of_get? {t : Nat} {x : Task} (h : w.tasks.get? t = some x) :
    w.taskOutcome? t = x.outcome := by
  simp [taskOutcome?, h]

/-! ### Groups -/

/-- A complete group is quiescent if every member has an outcome. -/
theorem quiescent_iff {g : GroupRef} {x : Group} (hx : w.groups.get? g.id = some x)
    (hlen : x.tasks.length = x.handles.length) :
    w.quiescent g = true ↔ ∀ u ∈ x.tasks, (w.taskOutcome? u).isSome = true := by
  simp [quiescent, hx, hlen]

/-! ### Groups that are awaited -/

/-- A group can be awaited as long as nobody has awaited it. -/
theorem groupTaken_eq_false_iff {g : GroupRef} :
    w.groupTaken g = false ↔ ∃ x, w.groups.get? g.id = some x ∧ x.awaitedBy = none := by
  unfold groupTaken
  split
  · next hx => simp [hx]
  · next x hx => simp [hx]

/-- The row of a task that awaits something. -/
theorem get?_tasks_suspended {t : Nat} {x : Task} {top : CoroutineRef} (hx : w.tasks.get? t = some x)
    (f : Handle β → Handle β) (u : Nat) :
    ((w.modifyHandle top f).modifyTask t fun x => { x with state := .suspended }).tasks.get? u =
      if u = t then some { x with state := .suspended } else w.tasks.get? u :=
  get?_modifyTask_of_get? (w := w.modifyHandle top f) hx _ u

theorem suspend_of_taken {g : GroupRef} (h : w.groupTaken g = true) (s t : Nat) :
    w.suspend s t (.group g) = (.ok (), (w.modifyTask t fun x =>
      { x with state := .suspended }).deliver s t (.throw (.ofFailure .groupAwaited))) :=
  if_pos (c := (w.modifyTask t _).groupTaken g = true) h

theorem suspend_of_free {g : GroupRef} (h : w.groupTaken g = false) (s t : Nat) :
    w.suspend s t (.group g) =
      (w.modifyTask t fun x => { x with state := .suspended }).startGroup s t g :=
  if_neg (c := (w.modifyTask t _).groupTaken g = true) (Bool.eq_false_iff.mp h)

/-- A group that is started, before its members have tasks. -/
def opening (w : World β σ) (s t : Nat) (g : GroupRef) : World β σ :=
  (w.modifyGroup g fun x => { x with awaitedBy := some t }).emit s
    (.joinStart ((w.modifyGroup g fun x => { x with awaitedBy := some t }).taskId t)
      ((w.modifyGroup g fun x => { x with awaitedBy := some t }).groupSize g))

theorem get?_groups_opening (w : World β σ) (s t : Nat) (g : GroupRef) (i : Nat) :
    (w.opening s t g).groups.get? i = if g.id = i then
      (w.groups.get? i).map fun x => { x with awaitedBy := some t } else w.groups.get? i :=
  get?_groups_modifyGroup ..

theorem startGroup_eq (w : World β σ) (s t : Nat) (g : GroupRef) : w.startGroup s t g =
    ((w.opening s t g).startMembers s g 0
      (((w.groups.get? g.id).map Group.handles).getD [])).closeGroup s g := by
  have hhandles : ((w.opening s t g).groups.get? g.id).map Group.handles =
      (w.groups.get? g.id).map Group.handles := by
    rw [get?_groups_opening, if_pos rfl, Option.map_map]
    rfl
  rw [← hhandles]
  rfl

theorem startGroup_of_get? {s t : Nat} {g : GroupRef} {x : Group}
    (hx : w.groups.get? g.id = some x) : w.startGroup s t g =
      ((w.opening s t g).startMembers s g 0 x.handles).closeGroup s g := by
  rw [startGroup_eq, hx, Option.map_some, Option.getD_some]

/-- The groups once one of them was started. -/
theorem get?_opening_of_get? {s t : Nat} {g : GroupRef} {x : Group}
    (hx : w.groups.get? g.id = some x) (i : Nat) : (w.opening s t g).groups.get? i =
      if i = g.id then some { x with awaitedBy := some t } else w.groups.get? i := by
  rw [get?_groups_opening]
  by_cases e : i = g.id
  · rw [if_pos e.symm, if_pos e, e, hx, Option.map_some]
  · rw [if_neg (Ne.symm e), if_neg e]

/-! ### Claims -/

/-- A claim that succeeds marks a coroutine that has not started and belongs to no task. -/
theorem claim_eq_none {c : CoroutineRef} {task : Nat} {w' : World β σ}
    (h : w.claim c task = (none, w')) :
    ∃ x, w.handles.get? c.id = some x ∧ x.status = .created ∧ x.owner = none ∧
      w' = w.modifyHandle c (·.ownedBy task) := by
  unfold claim at h
  split at h
  · cases h
  · next x hx =>
      split at h
      · cases h
      · next hf =>
          cases h
          obtain ⟨hs, ho⟩ := Handle.claimFailure?_eq_none_iff.mp hf
          exact ⟨x, hx, hs, ho, rfl⟩

/-- A claim that fails changes nothing. -/
theorem claim_eq_some {c : CoroutineRef} {task : Nat} {f : Failure} {w' : World β σ}
    (h : w.claim c task = (some f, w')) : w' = w := by
  unfold claim at h
  split at h
  · cases h; rfl
  · split at h <;> cases h; rfl

@[simp] theorem tasks_claim (w : World β σ) (c : CoroutineRef) (task : Nat) :
    (w.claim c task).2.tasks = w.tasks := by
  unfold claim
  split
  · rfl
  · split <;> rfl

/-! ### New tasks -/

section

variable (w) (s : Nat) (c : CoroutineRef) (index : Nat) (group : Option GroupRef)

theorem newTask_fst : (w.newTask s c index group).1 = w.tasks.size := rfl

@[simp] theorem handles_newTask : (w.newTask s c index group).2.handles = w.handles := rfl
@[simp] theorem groups_newTask : (w.newTask s c index group).2.groups = w.groups := rfl

@[simp] theorem context?_newTask (s' : Nat) :
    (w.newTask s c index group).2.context? s' = w.context? s' := by
  show (w.modifyScheduler s _).context? s' = _
  rw [context?_modifyScheduler]
  split
  · simp [context?]
  · rfl

/-- The row of a new task. -/
theorem get?_tasks_newTask : ∃ id, ∀ u, (w.newTask s c index group).2.tasks.get? u =
    if u = w.tasks.size then some ⟨id, index, group, .pending, [c], .start, none⟩
    else w.tasks.get? u := ⟨_, fun _ => Table.get?_push ..⟩

end

/-- A new member adds a row to the tasks and its number to its group. -/
theorem addMember_spec (w : World β σ) (s : Nat) (g : GroupRef) (index : Nat) (c : CoroutineRef) :
    ∃ id w', w.addMember s g index c = (w.tasks.size, w') ∧
      (∀ u, w'.tasks.get? u = if u = w.tasks.size then
        some ⟨id, index, some g, .pending, [c], .start, none⟩ else w.tasks.get? u) ∧
      w'.tasks.size = w.tasks.size + 1 ∧ w'.handles = w.handles ∧
      (∀ i, w'.groups.get? i = if g.id = i then
        (w.groups.get? i).map fun x => { x with tasks := x.tasks ++ [w.tasks.size] }
        else w.groups.get? i) ∧
      ∀ s', w'.context? s' = w.context? s' := by
  obtain ⟨id, hrow⟩ := w.get?_tasks_newTask s c index (some g)
  exact ⟨id, _, rfl, hrow, Table.size_push .., rfl, fun i => get?_groups_modifyGroup ..,
    fun s' => context?_newTask w s c index (some g) s'⟩

/-! ### One step -/

/-- Taking a task from the queue leaves the tasks behind it. -/
theorem dequeue_eq_some {s t : Nat} {w' : World β σ} (h : w.dequeue s = some (t, w')) :
    ∃ ctx rest, w.context? s = some ctx ∧ ctx.ready = t :: rest ∧
      w' = w.modifyContext s fun ctx => { ctx with ready := rest } := by
  unfold dequeue at h
  split at h
  · cases h
  · next ctx hc =>
      split at h
      · cases h
      · next hr =>
          cases h
          exact ⟨ctx, _, hc, hr, rfl⟩

/-- A task with a coroutine is taken up, unless the run is at its limit; its row is marked, and
only the run's own count changes besides. -/
theorem takeUp_cases {s t : Nat} {x : Task} {top : CoroutineRef} {rest : List CoroutineRef}
    (hx : w.tasks.get? t = some x) (hc : x.chain = top :: rest) :
    (∃ limit, w.takeUp s t = (.error (.raise (.budget limit)),
      (w.modifyContext s fun ctx => { ctx with steps := ctx.steps + 1 }).emit s
        (.budgetExceeded limit))) ∨
    w.takeUp s t = (.ok (some (top, x.inbox)),
      (w.modifyContext s fun ctx => { ctx with steps := ctx.steps + 1 }).modifyTask t fun x =>
        { x with state := .running, inbox := .start }) := by
  simp only [takeUp, hx, hc]
  cases (w.modifyContext s fun ctx => { ctx with steps := ctx.steps + 1 }).exceeded? s with
  | none => exact .inr rfl
  | some limit => exact .inl ⟨limit, rfl⟩

/-- The end of a task that is no member of a group. -/
theorem finish_root {s t : Nat} {x : Task} {outcome : Outcome} (hx : w.tasks.get? t = some x)
    (hg : x.group = none) : w.finish s t outcome =
      (.ok (), (w.modifyTask t (·.ended outcome)).emit s (.taskEnd x.id x.index outcome.isOk)) := by
  have hx' : (w.modifyTask t (·.ended outcome)).tasks.get? t = some (x.ended outcome) := by
    rw [get?_tasks_modifyTask, if_pos rfl, hx, Option.map_some]
  have hg' : (x.ended outcome).group = x.group := rfl
  simp only [finish, hx', hg', hg]
  rfl

theorem finish_member {s t : Nat} {x : Task} {g : GroupRef} {outcome : Outcome}
    (hx : w.tasks.get? t = some x) (hg : x.group = some g) : w.finish s t outcome =
      ((w.modifyTask t (·.ended outcome)).emit s
        (.taskEnd x.id x.index outcome.isOk)).closeGroup s g := by
  have hx' : (w.modifyTask t (·.ended outcome)).tasks.get? t = some (x.ended outcome) := by
    rw [get?_tasks_modifyTask, if_pos rfl, hx, Option.map_some]
  have hg' : (x.ended outcome).group = x.group := rfl
  simp only [finish, hx', hg', hg]
  rfl

/-- A task was handed an outcome and joined the queue; new names for failures apart, nothing else
changed. -/
structure Hands (s t : Nat) (y : Task) (outcome : Outcome) (n : Nat) (w w' : World β σ) : Prop where
  rows : ∀ u, w'.tasks.get? u = if u = t then some { y with inbox := outcome.input }
    else w.tasks.get? u
  size : w'.tasks.size = w.tasks.size
  handles : w'.handles = w.handles
  groups : w'.groups = w.groups
  shared : w'.shared = w.shared
  nextIdentity : w'.nextIdentity = n
  schedulers : w'.schedulers = (w.enqueue s t).schedulers

/-- A group that is settled hands its outcome to the task that awaits it. -/
theorem closeGroup_of_settle {s t n : Nat} {g : GroupRef} {x : Group} {y : Task} {outcome : Outcome}
    (hx : w.groups.get? g.id = some x) (ha : x.awaitedBy = some t) (hq : w.quiescent g = true)
    (hs : w.settle g = (.ok outcome, { w with nextIdentity := n }))
    (hy : w.tasks.get? t = some y) :
    ∃ w', w.closeGroup s g = (.ok (), w') ∧ Hands s t y outcome n w w' := by
  let w₁ : World β σ := { w with nextIdentity := n }
  let w₂ := w₁.modifyTask t fun x => { x with inbox := outcome.input }
  refine ⟨(w₂.emit s (.joinEnd (w₂.taskId t) outcome.isOk)).enqueue s t, ?_,
    ⟨get?_modifyTask_of_get? (w := w₁) hy _, Table.size_modify .., rfl, rfl, rfl, rfl, rfl⟩⟩
  simp only [closeGroup, hq, if_true, settleGroup, hx, Option.bind_some, ha, hs]
  rfl

theorem context?_deactivate (s s' : Nat) :
    (w.deactivate s).context? s' = if s = s' then none else w.context? s' := by
  rw [deactivate, context?_modifyScheduler]
  split <;> simp

end World

end Coroutines
