import Coroutines.Proofs.Budget.Blind
import Mathlib.Order.Nat

/-!
# Worlds up to the numbers of tasks

Tasks are counted, in each scheduler and in the table of all tasks, and nothing but the trace tells what
their numbers are.  A world is another one *renumbered* if it has the same rows but for such numbers: the
tasks of one scheduler are numbered from a greater number on, and the rows of tasks from some row on are
moved (`World.Renumbered`).  The changes of single rows keep two worlds so.
-/

namespace Coroutines

/-- How far the numbers in one world are from those in another, and what happened in each before they are
compared. -/
structure Renumbering where
  /-- The scheduler whose tasks have other numbers. -/
  scheduler : Nat
  /-- What is added to the numbers of its tasks. -/
  ids : Nat
  /-- The row of the task table from which on tasks are moved. -/
  first : Nat
  /-- How many rows they are moved. -/
  rows : Nat
  /-- The events before, in the world as it is and in the renumbered one. -/
  past : List (Nat × Event)
  past' : List (Nat × Event)

/-- The event of tasks that have greater numbers. -/
def Event.numbered (k : Nat) : Event → Event
  | .taskSpawn task index coroutine => .taskSpawn (task + k) index coroutine
  | .taskSuspend task awaiting => .taskSuspend (task + k) awaiting
  | .taskEnd task index ok => .taskEnd (task + k) index ok
  | .joinStart task size => .joinStart (task + k) size
  | .joinEnd task ok => .joinEnd (task + k) ok
  | e => e

def Task.numbered (k : Nat) (x : Task) : Task := { x with id := x.id + k }

/-- The handle, with its owner but not with the owner's number. -/
def Handle.anonymous {β : Type} (x : Handle β) : Handle β := { x with owner := x.owner.map fun _ => 0 }

namespace Renumbering

variable (r : Renumbering)

/-- The row to which a task is moved. -/
def row (t : Nat) : Nat := if t < r.first then t else t + r.rows

/-- What is added to the numbers of a scheduler's tasks. -/
def shift (s : Nat) : Nat := if s = r.scheduler then r.ids else 0

def event (e : Nat × Event) : Nat × Event := (e.1, e.2.numbered (r.shift e.1))

def group (x : Group) : Group :=
  { x with tasks := x.tasks.map r.row, awaitedBy := x.awaitedBy.map r.row }

def context (x : RunContext) : RunContext := { x with root := r.row x.root, ready := x.ready.map r.row }

def schedule (s : Nat) (x : Scheduler) : Scheduler :=
  { x with nextTask := x.nextTask + r.shift s, context := x.context.map r.context }

theorem row_of_le {t : Nat} (h : r.first ≤ t) : r.row t = t + r.rows := if_neg (by omega)

theorem row_injective : Function.Injective r.row := by
  intro t u h
  simp only [row] at h
  split at h <;> split at h <;> omega

theorem row_eq_iff {t u : Nat} : r.row t = r.row u ↔ t = u := r.row_injective.eq_iff

end Renumbering

namespace World

variable {β σ : Type} {w v : World β σ} {r : Renumbering} {num : Nat → Nat}

/-- A world `v` is the world `w` renumbered, where the numbers of tasks differ by `num`.  The root of a run
and the tasks in its queue have the numbers of its scheduler, and a member of a group those of the task
that awaits it; queues and groups hold tasks that are there. -/
structure Renumbered (r : Renumbering) (num : Nat → Nat) (w v : World β σ) : Prop where
  handles : ∀ i, (v.handles.get? i).map Handle.anonymous = (w.handles.get? i).map Handle.anonymous
  groups : ∀ g, v.groups.get? g = (w.groups.get? g).map r.group
  tasks : ∀ t, v.tasks.get? (r.row t) = (w.tasks.get? t).map (Task.numbered (num t))
  first : r.first ≤ w.tasks.size
  size : v.tasks.size = w.tasks.size + r.rows
  schedulers : ∀ s, v.schedulers.get? s = (w.schedulers.get? s).map (r.schedule s)
  exists_scheduler : ∃ x, w.schedulers.get? r.scheduler = some x
  shared : v.shared = w.shared
  identity : v.nextIdentity = w.nextIdentity
  trace : ∃ events, w.trace.toList = r.past ++ events ∧ v.trace.toList = r.past' ++ events.map r.event
  ready : ∀ ⦃s ctx⦄, w.context? s = some ctx → ∀ t ∈ ctx.root :: ctx.ready,
    t < w.tasks.size ∧ num t = r.shift s
  members : ∀ ⦃g y⦄, w.groups.get? g = some y → ∀ t, t ∈ y.tasks ∨ y.awaitedBy = some t →
    t < w.tasks.size
  grouped : ∀ ⦃t x g⦄, w.tasks.get? t = some x → x.group = some g → ∃ y p,
    w.groups.get? g.id = some y ∧ y.awaitedBy = some p ∧ p < w.tasks.size ∧ num p = num t

namespace Renumbered

/-! ### What can be told -/

theorem size_handles (h : w.Renumbered r num v) : v.handles.size = w.handles.size := by
  refine Nat.le_antisymm ?_ ?_ <;> rw [← Table.get?_eq_none_iff, ← Option.map_eq_none_iff
    (f := Handle.anonymous)]
  · rw [h.handles, Table.get?_size]
    rfl
  · rw [← h.handles, Table.get?_size]
    rfl

theorem size_groups (h : w.Renumbered r num v) : v.groups.size = w.groups.size := by
  refine Nat.le_antisymm ?_ ?_ <;> rw [← Table.get?_eq_none_iff]
  · rw [h.groups, Table.get?_size]
    rfl
  · rw [← Option.map_eq_none_iff (f := r.group), ← h.groups, Table.get?_size]

theorem row_size (h : w.Renumbered r num v) : r.row w.tasks.size = v.tasks.size := by
  rw [r.row_of_le h.first, h.size]

theorem context?_eq (h : w.Renumbered r num v) (s : Nat) :
    v.context? s = (w.context? s).map r.context := by
  simp only [context?, h.schedulers, Option.bind_map]
  cases w.schedulers.get? s <;> rfl

theorem isActive_eq (h : w.Renumbered r num v) (s : Nat) : v.isActive s = w.isActive s := by
  simp only [isActive, h.schedulers]
  cases hx : w.schedulers.get? s with
  | none => rfl
  | some x => exact Option.isSome_map

theorem taskOutcome?_eq (h : w.Renumbered r num v) (t : Nat) :
    v.taskOutcome? (r.row t) = w.taskOutcome? t := by
  simp only [taskOutcome?, h.tasks]
  cases w.tasks.get? t <;> rfl

theorem taskId_eq (h : w.Renumbered r num v) {t : Nat} (ht : t < w.tasks.size) :
    v.taskId (r.row t) = w.taskId t + num t := by
  obtain ⟨x, hx⟩ := Table.exists_get? ht
  simp only [taskId, h.tasks, hx]
  rfl

theorem groupSize_eq (h : w.Renumbered r num v) (g : GroupRef) : v.groupSize g = w.groupSize g := by
  rw [groupSize, groupSize, h.groups, Option.map_map]
  rfl

/-- Coroutines differ in the number of their owner at most. -/
theorem exists_handle (h : w.Renumbered r num v) {i : Nat} {x : Handle β}
    (hx : w.handles.get? i = some x) : ∃ y, v.handles.get? i = some y ∧
      y.anonymous = x.anonymous := by
  have he := h.handles i
  rw [hx] at he
  exact Option.map_eq_some_iff.mp he

/-! ### Changes of one row -/

theorem emit (h : w.Renumbered r num v) (s : Nat) (e : Event) :
    (w.emit s e).Renumbered r num (v.emit s (e.numbered (r.shift s))) where
  handles := h.handles
  groups := h.groups
  tasks := h.tasks
  first := h.first
  size := h.size
  schedulers := h.schedulers
  exists_scheduler := h.exists_scheduler
  shared := h.shared
  identity := h.identity
  trace := by
    obtain ⟨events, hw, hv⟩ := h.trace
    refine ⟨events ++ [(s, e)], ?_, ?_⟩
    · simp only [World.emit, Array.toList_push, hw, List.append_assoc]
    · simp only [World.emit, Array.toList_push, hv, List.append_assoc, List.map_append]
      rfl
  ready := h.ready
  members := h.members
  grouped := h.grouped

theorem modifyHandle (h : w.Renumbered r num v) (c : CoroutineRef) {f g : Handle β → Handle β}
    (hf : ∀ x y, y.anonymous = x.anonymous → (g y).anonymous = (f x).anonymous) :
    (w.modifyHandle c f).Renumbered r num (v.modifyHandle c g) where
  handles i := by
    rw [get?_handles_modifyHandle, get?_handles_modifyHandle]
    split
    · have he := h.handles i
      cases hx : w.handles.get? i with
      | none =>
          rw [hx, Option.map_none, Option.map_eq_none_iff] at he
          rw [he]
          rfl
      | some x =>
          obtain ⟨y, hy, hxy⟩ := h.exists_handle hx
          rw [hy]
          exact congrArg some (hf x y hxy)
    · exact h.handles i
  groups := h.groups
  tasks := h.tasks
  first := h.first
  size := h.size
  schedulers := h.schedulers
  exists_scheduler := h.exists_scheduler
  shared := h.shared
  identity := h.identity
  trace := h.trace
  ready := h.ready
  members := h.members
  grouped := h.grouped

/-- A group keeps the task that awaits it. -/
theorem modifyGroup (h : w.Renumbered r num v) (g : GroupRef) {f k : Group → Group}
    (hf : ∀ x, k (r.group x) = r.group (f x)) (ha : ∀ x p, w.groups.get? g.id = some x →
      x.awaitedBy = some p → (f x).awaitedBy = some p)
    (hm : ∀ x, w.groups.get? g.id = some x → ∀ t, t ∈ (f x).tasks ∨ (f x).awaitedBy = some t →
      t < w.tasks.size) :
    (w.modifyGroup g f).Renumbered r num (v.modifyGroup g k) where
  handles := h.handles
  groups i := by
    rw [get?_groups_modifyGroup, get?_groups_modifyGroup]
    split
    · rw [h.groups, Option.map_map, Option.map_map]
      exact congrArg (fun f => Option.map f _) (funext hf)
    · exact h.groups i
  tasks := h.tasks
  first := h.first
  size := h.size
  schedulers := h.schedulers
  exists_scheduler := h.exists_scheduler
  shared := h.shared
  identity := h.identity
  trace := h.trace
  ready := h.ready
  members i y hy := by
    rw [get?_groups_modifyGroup] at hy
    split at hy
    · next hi =>
        obtain ⟨x, hx, rfl⟩ := Option.map_eq_some_iff.mp hy
        exact hm x (hi ▸ hx)
    · exact h.members hy
  grouped t x g' hx hg := by
    obtain ⟨y, p, hy, hawait, hp, e⟩ := h.grouped hx hg
    by_cases hid : g.id = g'.id
    · exact ⟨f y, p, by rw [get?_groups_modifyGroup, if_pos hid, hy]; rfl,
        ha y p (hid ▸ hy) hawait, hp, e⟩
    · exact ⟨y, p, by rw [get?_groups_modifyGroup, if_neg hid, hy], hawait, hp, e⟩

theorem modifyTask (h : w.Renumbered r num v) (t : Nat) {f : Task → Task}
    (hf : ∀ x k, f (x.numbered k) = (f x).numbered k) (hg : ∀ x, (f x).group = x.group) :
    (w.modifyTask t f).Renumbered r num (v.modifyTask (r.row t) f) where
  handles := h.handles
  groups := h.groups
  tasks u := by
    rw [get?_tasks_modifyTask, get?_tasks_modifyTask, h.tasks]
    simp only [r.row_eq_iff]
    split
    · rw [Option.map_map, Option.map_map]
      exact congrArg (fun f => Option.map f _) (funext fun x => hf x _)
    · rfl
  first := by rw [size_tasks_modifyTask]; exact h.first
  size := by rw [size_tasks_modifyTask, size_tasks_modifyTask, h.size]
  schedulers := h.schedulers
  exists_scheduler := h.exists_scheduler
  shared := h.shared
  identity := h.identity
  trace := h.trace
  ready := by
    rw [size_tasks_modifyTask]
    exact h.ready
  members := by
    rw [size_tasks_modifyTask]
    exact h.members
  grouped u x g hx hgroup := by
    rw [size_tasks_modifyTask]
    rw [get?_tasks_modifyTask] at hx
    split at hx
    · obtain ⟨y, hy, rfl⟩ := Option.map_eq_some_iff.mp hx
      exact h.grouped hy ((hg y).symm.trans hgroup)
    · exact h.grouped hx hgroup

theorem get?_schedulers_modifyScheduler (w : World β σ) (s : Nat) (f : Scheduler → Scheduler)
    (i : Nat) : (w.modifyScheduler s f).schedulers.get? i =
      if s = i then (w.schedulers.get? i).map f else w.schedulers.get? i := Table.get?_modify ..

/-- A scheduler changes, and the tasks of its run have its numbers. -/
theorem modifyScheduler (h : w.Renumbered r num v) (s : Nat) {f g : Scheduler → Scheduler}
    (hf : ∀ x, g (r.schedule s x) = r.schedule s (f x))
    (hready : ∀ x ctx, w.schedulers.get? s = some x → (f x).context = some ctx →
      ∀ t ∈ ctx.root :: ctx.ready, t < w.tasks.size ∧ num t = r.shift s) :
    (w.modifyScheduler s f).Renumbered r num (v.modifyScheduler s g) where
  handles := h.handles
  groups := h.groups
  tasks := h.tasks
  first := h.first
  size := h.size
  schedulers i := by
    rw [get?_schedulers_modifyScheduler, get?_schedulers_modifyScheduler]
    split
    · next e =>
        subst e
        rw [h.schedulers, Option.map_map, Option.map_map]
        exact congrArg (fun f => Option.map f _) (funext hf)
    · exact h.schedulers i
  exists_scheduler := by
    obtain ⟨x, hx⟩ := h.exists_scheduler
    rw [get?_schedulers_modifyScheduler, hx]
    split <;> exact ⟨_, rfl⟩
  shared := h.shared
  identity := h.identity
  trace := h.trace
  ready i ctx hc t ht := by
    rw [context?_modifyScheduler] at hc
    split at hc
    · next e =>
        subst e
        obtain ⟨x, hx, hctx⟩ := Option.bind_eq_some_iff.mp hc
        exact hready x ctx hx hctx t ht
    · exact h.ready hc t ht
  members := h.members
  grouped := h.grouped

/-- A run changes, and its tasks have the numbers of its scheduler. -/
theorem modifyContext (h : w.Renumbered r num v) (s : Nat) {f g : RunContext → RunContext}
    (hf : ∀ x, g (r.context x) = r.context (f x))
    (hready : ∀ ctx, w.context? s = some ctx → ∀ t ∈ (f ctx).root :: (f ctx).ready,
      t < w.tasks.size ∧ num t = r.shift s) :
    (w.modifyContext s f).Renumbered r num (v.modifyContext s g) := by
  refine h.modifyScheduler s (fun x => ?_) fun x ctx hx hc => ?_
  · have hmap : (x.context.map r.context).map g = (x.context.map f).map r.context := by
      rw [Option.map_map, Option.map_map]
      exact congrArg (fun f => Option.map f _) (funext hf)
    simp only [Renumbering.schedule, hmap]
  · obtain ⟨ctx', hc', rfl⟩ := Option.map_eq_some_iff.mp hc
    refine hready ctx' ?_
    rw [context?, hx]
    exact hc'

theorem enqueue (h : w.Renumbered r num v) {s t : Nat} (ht : t < w.tasks.size)
    (hnum : num t = r.shift s) : (w.enqueue s t).Renumbered r num (v.enqueue s (r.row t)) := by
  refine h.modifyContext s (fun x => ?_) fun ctx hc u hu => ?_
  · simp [Renumbering.context]
  · rw [← List.cons_append] at hu
    rcases List.mem_append.mp hu with hu | hu
    · exact h.ready hc u hu
    · rw [List.mem_singleton.mp hu]
      exact ⟨ht, hnum⟩

theorem deliver (h : w.Renumbered r num v) {s t : Nat} (ht : t < w.tasks.size)
    (hnum : num t = r.shift s) (input : Input) :
    (w.deliver s t input).Renumbered r num (v.deliver s (r.row t) input) := by
  have hmodify := h.modifyTask t (f := fun x => { x with inbox := input, state := .suspended })
    (fun _ _ => rfl) fun _ => rfl
  exact hmodify.enqueue (by rwa [size_tasks_modifyTask]) hnum

theorem deactivate (h : w.Renumbered r num v) (s : Nat) :
    (w.deactivate s).Renumbered r num (v.deactivate s) :=
  h.modifyScheduler s (fun _ => rfl) fun _ _ _ hc => by cases hc

theorem activate (h : w.Renumbered r num v) {s t : Nat} (ht : t < w.tasks.size)
    (hnum : num t = r.shift s) : (w.activate s t).Renumbered r num (v.activate s (r.row t)) := by
  refine h.modifyScheduler s (fun _ => rfl) fun x ctx _ hc u hu => ?_
  cases hc
  obtain rfl : u = t := by simpa using hu
  exact ⟨ht, hnum⟩

theorem release (h : w.Renumbered r num v) (c : CoroutineRef) :
    (w.release c).Renumbered r num (v.release c) :=
  h.modifyHandle c fun x y e => by
    simp only [Handle.anonymous, Handle.mk.injEq] at e
    simp [Handle.released, Handle.anonymous, e]

end Renumbered

end World

end Coroutines
