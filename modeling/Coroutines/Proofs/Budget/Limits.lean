import Coroutines.Proofs.Executions

/-!
# Schedulers with a limit

Putting a limit on a scheduler (`World.limited`) makes no difference to anything but the count of resumes
in its own runs: every operation does the same in the world with the limit.
-/

namespace Coroutines

namespace Table

variable {α : Type}

theorem ext_get? {t t' : Table α} (h : ∀ i, t.get? i = t'.get? i) : t = t' := by
  obtain ⟨rows⟩ := t
  obtain ⟨rows'⟩ := t'
  exact congrArg Table.mk (Array.ext_getElem? h)

/-- Changes of rows that do not interfere may be made in either order. -/
theorem modify_comm (t : Table α) {i j : Nat} {f g : α → α} (h : i = j → ∀ x, f (g x) = g (f x)) :
    (t.modify i g).modify j f = (t.modify j f).modify i g := by
  refine ext_get? fun k => ?_
  simp only [get?_modify]
  by_cases hi : i = k <;> by_cases hj : j = k <;> simp [hi, hj, Function.comp_def]
  cases t.get? k with
  | none => rfl
  | some x => simp [h (hi.trans hj.symm)]

end Table

/-- The scheduler with a limit on the resumes of a run. -/
def Scheduler.limitedTo (n : Number) (x : Scheduler) : Scheduler := { x with maxSteps := some n }

namespace World

variable {β σ : Type} (w : World β σ) (s : Nat) (n : Number)

/-- The world with a limit on a scheduler. -/
def limited : World β σ := w.modifyScheduler s (·.limitedTo n)

@[simp] theorem handles_limited : (w.limited s n).handles = w.handles := rfl
@[simp] theorem groups_limited : (w.limited s n).groups = w.groups := rfl
@[simp] theorem tasks_limited : (w.limited s n).tasks = w.tasks := rfl
@[simp] theorem trace_limited : (w.limited s n).trace = w.trace := rfl
@[simp] theorem nextIdentity_limited : (w.limited s n).nextIdentity = w.nextIdentity := rfl
@[simp] theorem shared_limited : (w.limited s n).shared = w.shared := rfl
@[simp] theorem taskId_limited (t : Nat) : (w.limited s n).taskId t = w.taskId t := rfl
@[simp] theorem taskOutcome?_limited (t : Nat) : (w.limited s n).taskOutcome? t = w.taskOutcome? t := rfl
@[simp] theorem quiescent_limited (g : GroupRef) : (w.limited s n).quiescent g = w.quiescent g := rfl
@[simp] theorem groupSize_limited (g : GroupRef) : (w.limited s n).groupSize g = w.groupSize g := rfl
@[simp] theorem groupTaken_limited (g : GroupRef) : (w.limited s n).groupTaken g = w.groupTaken g := rfl

theorem get?_schedulers_limited (s' : Nat) : (w.limited s n).schedulers.get? s' =
    if s = s' then (w.schedulers.get? s').map (·.limitedTo n) else w.schedulers.get? s' :=
  Table.get?_modify ..

@[simp] theorem context?_limited (s' : Nat) : (w.limited s n).context? s' = w.context? s' := by
  rw [context?, get?_schedulers_limited]
  split
  · rw [Option.bind_map]
    rfl
  · rfl

@[simp] theorem isActive_limited (s' : Nat) : (w.limited s n).isActive s' = w.isActive s' := by
  simp only [isActive, get?_schedulers_limited]
  cases w.schedulers.get? s' <;> by_cases h : s = s' <;> simp [h, Scheduler.limitedTo]

/-! ### Changes -/

@[simp] theorem emit_limited (s' : Nat) (e : Event) :
    (w.limited s n).emit s' e = (w.emit s' e).limited s n := rfl

@[simp] theorem modifyHandle_limited (c : CoroutineRef) (f : Handle β → Handle β) :
    (w.limited s n).modifyHandle c f = (w.modifyHandle c f).limited s n := rfl

@[simp] theorem modifyGroup_limited (g : GroupRef) (f : Group → Group) :
    (w.limited s n).modifyGroup g f = (w.modifyGroup g f).limited s n := rfl

@[simp] theorem modifyTask_limited (t : Nat) (f : Task → Task) :
    (w.limited s n).modifyTask t f = (w.modifyTask t f).limited s n := rfl

@[simp] theorem release_limited (c : CoroutineRef) :
    (w.limited s n).release c = (w.release c).limited s n := rfl

theorem modifyScheduler_limited (s' : Nat) {f : Scheduler → Scheduler}
    (hf : ∀ x, f (x.limitedTo n) = (f x).limitedTo n) :
    (w.limited s n).modifyScheduler s' f = (w.modifyScheduler s' f).limited s n :=
  congrArg (fun t => { w with schedulers := t }) (w.schedulers.modify_comm fun _ => hf)

@[simp] theorem modifyContext_limited (s' : Nat) (f : RunContext → RunContext) :
    (w.limited s n).modifyContext s' f = (w.modifyContext s' f).limited s n :=
  w.modifyScheduler_limited s n s' fun _ => rfl

@[simp] theorem enqueue_limited (s' t : Nat) :
    (w.limited s n).enqueue s' t = (w.enqueue s' t).limited s n := modifyContext_limited ..

@[simp] theorem deliver_limited (s' t : Nat) (input : Input) :
    (w.limited s n).deliver s' t input = (w.deliver s' t input).limited s n := by
  simp [deliver]

@[simp] theorem activate_limited (s' root : Nat) :
    (w.limited s n).activate s' root = (w.activate s' root).limited s n :=
  w.modifyScheduler_limited s n s' fun _ => rfl

@[simp] theorem deactivate_limited (s' : Nat) :
    (w.limited s n).deactivate s' = (w.deactivate s').limited s n :=
  w.modifyScheduler_limited s n s' fun _ => rfl

@[simp] theorem dequeue_limited (s' : Nat) : (w.limited s n).dequeue s' =
    (w.dequeue s').map (Prod.map id (limited · s n)) := by
  simp only [dequeue, context?_limited]
  split
  · rfl
  · split
    · rfl
    · simp

@[simp] theorem claim_limited (c : CoroutineRef) (task : Nat) :
    (w.limited s n).claim c task = (w.claim c task).map id (limited · s n) := by
  simp only [claim, handles_limited]
  split
  · rfl
  · split <;> rfl

@[simp] theorem newTask_limited (s' : Nat) (c : CoroutineRef) (index : Nat)
    (group : Option GroupRef) : (w.limited s n).newTask s' c index group =
      (w.newTask s' c index group).map id (limited · s n) := by
  have hid : (((w.limited s n).schedulers.get? s').map Scheduler.nextTask).getD 0 =
      ((w.schedulers.get? s').map Scheduler.nextTask).getD 0 := by
    rw [get?_schedulers_limited]
    split
    · simp [Function.comp_def, Scheduler.limitedTo]
    · rfl
  have hs := w.modifyScheduler_limited s n s' (f := fun x => { x with nextTask := x.nextTask + 1 })
    fun _ => rfl
  simp only [newTask, hid, hs]
  rfl

/-! ### Groups -/

@[simp] theorem settle_limited (g : GroupRef) :
    (w.limited s n).settle g = (w.settle g).map id (limited · s n) := by
  simp only [settle, groups_limited]
  split <;> rfl

@[simp] theorem closeGroup_limited (s' : Nat) (g : GroupRef) :
    (w.limited s n).closeGroup s' g = (w.closeGroup s' g).map id (limited · s n) := by
  simp only [closeGroup, quiescent_limited, settleGroup, groups_limited, settle_limited]
  split
  · split
    · rfl
    · rcases w.settle g with ⟨_ | _, _⟩ <;> simp
  · rfl

@[simp] theorem addMember_limited (s' : Nat) (g : GroupRef) (index : Nat) (c : CoroutineRef) :
    (w.limited s n).addMember s' g index c =
      (w.addMember s' g index c).map id (limited · s n) := by
  simp [addMember]

@[simp] theorem startMember_limited (s' : Nat) (g : GroupRef) (index : Nat) (c : CoroutineRef) :
    (w.limited s n).startMember s' g index c = (w.startMember s' g index c).limited s n := by
  simp only [startMember, addMember_limited, Prod.map_fst, Prod.map_snd, id, taskId_limited,
    claim_limited]
  rcases (w.addMember s' g index c).2.claim c _ with ⟨_ | _, _⟩ <;> simp

@[simp] theorem startMembers_limited (s' : Nat) (g : GroupRef) (index : Nat)
    (cs : List CoroutineRef) :
    (w.limited s n).startMembers s' g index cs = (w.startMembers s' g index cs).limited s n := by
  induction cs generalizing w index with
  | nil => rfl
  | cons c rest ih => simp [startMembers, ih]

/-! ### One step -/

@[simp] theorem startGroup_limited (s' parent : Nat) (g : GroupRef) :
    (w.limited s n).startGroup s' parent g =
      (w.startGroup s' parent g).map id (limited · s n) := by
  simp [startGroup]

theorem suspend_limited (s' t : Nat) (target : Target) : (w.limited s n).suspend s' t target =
    (w.suspend s' t target).map id (limited · s n) := by
  cases target with
  | group g =>
      simp only [suspend, modifyTask_limited, groupTaken_limited, startGroup_limited, deliver_limited]
      split <;> rfl
  | coroutine c => simp [suspend]

theorem finish_limited (s' t : Nat) (outcome : Outcome) : (w.limited s n).finish s' t outcome =
    (w.finish s' t outcome).map id (limited · s n) := by
  simp only [finish, modifyTask_limited, tasks_limited]
  split
  · rfl
  · split <;> simp

theorem unwind_limited (s' t : Nat) (top : CoroutineRef) (outcome : Outcome) :
    (w.limited s n).unwind s' t top outcome =
      (w.unwind s' t top outcome).map id (limited · s n) := by
  simp only [unwind, modifyTask_limited, release_limited, tasks_limited, finish_limited,
    deliver_limited]
  split <;> rfl

/-- A task goes on from a step in the same way whatever the limit. -/
theorem absorb_limited (s' t : Nat) (top : CoroutineRef) (step : Step) :
    (w.limited s n).absorb s' t top step = (w.absorb s' t top step).map id (limited · s n) := by
  cases step with
  | await target => exact suspend_limited ..
  | ret v => exact unwind_limited ..
  | raise r => exact unwind_limited ..

theorem start_limited (s' : Nat) (c : CoroutineRef) :
    (w.limited s n).start s' c = (w.start s' c).map id (limited · s n) := by
  simp only [start, isActive_limited]
  split
  · rfl
  · simp only [newTask_limited, Prod.map_fst, Prod.map_snd, id, taskId_limited, claim_limited]
    rcases (w.newTask s' c 0 none).2.claim c _ with ⟨_ | _, _⟩ <;> simp

theorem conclude_limited (s' root : Nat) (c : CoroutineRef) :
    (w.limited s n).conclude s' root c = (w.conclude s' root c).map id (limited · s n) := by
  simp only [conclude, taskOutcome?_limited, context?_limited]
  split <;> rfl

/-! ### Counts and limits -/

/-- The count of resumes in the run of a scheduler, if one is in progress, and the limit. -/
def gauge : Option (Option Nat × Option Number) :=
  (w.schedulers.get? s).map fun x => (x.context.map RunContext.steps, x.maxSteps)

variable {w}

theorem isActive_eq_gauge : w.isActive s = ((w.gauge s).all fun x => x.1.isSome) := by
  simp only [isActive, gauge]
  cases w.schedulers.get? s <;> simp

theorem gauge_modifyScheduler_of_ne {s' : Nat} {f : Scheduler → Scheduler} (h : s' ≠ s) :
    (w.modifyScheduler s' f).gauge s = w.gauge s := by
  simp only [gauge, modifyScheduler, Table.get?_modify_of_ne _ f h]

theorem gauge_modifyScheduler {s' : Nat} {f : Scheduler → Scheduler}
    (hf : ∀ x, (f x).context.map RunContext.steps = x.context.map RunContext.steps)
    (hf' : ∀ x, (f x).maxSteps = x.maxSteps) :
    (w.modifyScheduler s' f).gauge s = w.gauge s := by
  simp only [gauge, modifyScheduler, Table.get?_modify]
  split <;> simp [Function.comp_def, hf, hf']

@[simp] theorem gauge_emit (s' : Nat) (e : Event) : (w.emit s' e).gauge s = w.gauge s := rfl

@[simp] theorem gauge_modifyTask (t : Nat) (f : Task → Task) :
    (w.modifyTask t f).gauge s = w.gauge s := rfl

@[simp] theorem gauge_modifyHandle (c : CoroutineRef) (f : Handle β → Handle β) :
    (w.modifyHandle c f).gauge s = w.gauge s := rfl

@[simp] theorem gauge_modifyGroup (g : GroupRef) (f : Group → Group) :
    (w.modifyGroup g f).gauge s = w.gauge s := rfl

@[simp] theorem gauge_release (c : CoroutineRef) : (w.release c).gauge s = w.gauge s := rfl

@[simp] theorem gauge_enqueue (s' t : Nat) : (w.enqueue s' t).gauge s = w.gauge s :=
  gauge_modifyScheduler s (fun x => by cases x.context <;> rfl) fun _ => rfl

@[simp] theorem gauge_deliver (s' t : Nat) (input : Input) :
    (w.deliver s' t input).gauge s = w.gauge s := gauge_enqueue ..

@[simp] theorem gauge_newTask (s' : Nat) (c : CoroutineRef) (index : Nat)
    (group : Option GroupRef) : (w.newTask s' c index group).2.gauge s = w.gauge s :=
  gauge_modifyScheduler s (fun _ => rfl) fun _ => rfl

@[simp] theorem gauge_claim (c : CoroutineRef) (task : Nat) :
    (w.claim c task).2.gauge s = w.gauge s := by
  unfold claim
  split
  · rfl
  · split <;> rfl

@[simp] theorem gauge_settle (g : GroupRef) : (w.settle g).2.gauge s = w.gauge s := by
  unfold settle
  split <;> rfl

@[simp] theorem gauge_closeGroup (s' : Nat) (g : GroupRef) :
    (w.closeGroup s' g).2.gauge s = w.gauge s := by
  have hsettle := gauge_settle (w := w) s g
  simp only [closeGroup, settleGroup]
  split
  · split
    · rfl
    · rcases e : w.settle g with ⟨_ | _, _⟩ <;> rw [e] at hsettle <;> simpa using hsettle
  · rfl

@[simp] theorem gauge_startMember (s' : Nat) (g : GroupRef) (index : Nat) (c : CoroutineRef) :
    (w.startMember s' g index c).gauge s = w.gauge s := by
  have hadd : (w.addMember s' g index c).2.gauge s = w.gauge s := by simp [addMember]
  have hclaim := gauge_claim (w := (w.addMember s' g index c).2) s c
    ((w.addMember s' g index c).2.taskId (w.addMember s' g index c).1)
  rw [hadd] at hclaim
  simp only [startMember]
  rcases e : (w.addMember s' g index c).2.claim c _ with ⟨_ | _, _⟩ <;> rw [e] at hclaim <;>
    simpa using hclaim

@[simp] theorem gauge_startMembers (s' : Nat) (g : GroupRef) (index : Nat)
    (cs : List CoroutineRef) : (w.startMembers s' g index cs).gauge s = w.gauge s := by
  induction cs generalizing w index with
  | nil => rfl
  | cons c rest ih => simp [startMembers, ih]

/-- Where a task goes on from a step, no count and no limit changes. -/
theorem gauge_absorb (s' t : Nat) (top : CoroutineRef) (step : Step) :
    (w.absorb s' t top step).2.gauge s = w.gauge s := by
  have hunwind : ∀ outcome, (w.unwind s' t top outcome).2.gauge s = w.gauge s := by
    intro outcome
    simp only [unwind]
    split
    · simp only [finish]
      split
      · rfl
      · split <;> simp
    · simp
  cases step with
  | await target =>
      cases target with
      | group g =>
          simp only [absorb, suspend]
          split <;> simp [startGroup]
      | coroutine c => simp [absorb, suspend]
  | ret v => exact hunwind _
  | raise r => exact hunwind _

theorem gauge_dequeue {s' t : Nat} {w' : World β σ} (h : w.dequeue s' = some (t, w')) :
    w'.gauge s = w.gauge s := by
  obtain ⟨ctx, rest, -, -, rfl⟩ := dequeue_eq_some h
  exact gauge_modifyScheduler s (fun x => by cases x.context <;> rfl) fun _ => rfl

end World

end Coroutines
