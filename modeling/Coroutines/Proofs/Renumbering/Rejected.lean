import Coroutines.Proofs.Activity
import Coroutines.Proofs.Joining.Slots
import Coroutines.Proofs.Renumbering.Pending
import Coroutines.Proofs.Renumbering.Tidy

/-!
# Rejected operations

A run that is refused, a group that is asked for outside a run, and an await of what cannot be awaited
change nothing but the coroutine that asked for them, which gets the failure.  Everything else goes on as
if the failure had been delivered without the attempt (`World.Moment.rejected`).
-/

namespace Coroutines

namespace World

variable {β σ α γ : Type} {w v : World β σ}

/-- The first request of an action is refused with a failure, and the action goes on with it: a run on a
scheduler that is active or of a coroutine that cannot be claimed, and a group outside a run. -/
inductive Refuses (w : World β σ) : Action β σ α → Failure → Action β σ α → Prop
  | nested {s : Nat} {c : CoroutineRef} {next : Except Record Value → Action β σ α}
      (h : w.isActive s = true) :
      Refuses w (.run s c next) .nestedRun (next (.error (.ofFailure .nestedRun)))
  | claim {s : Nat} {c : CoroutineRef} {next : Except Record Value → Action β σ α} {f : Failure}
      (h : w.isActive s = false) (hf : (w.claim c 0).1 = some f) :
      Refuses w (.run s c next) f (next (.error (.ofFailure f)))
  | joinAll {s : Nat} {members : List CoroutineRef} {re : Bool}
      {next : Except Record GroupRef → Action β σ α} (h : w.isActive s = false) :
      Refuses w (.joinAll s members re next) .noRunningLoop (next (.error (.ofFailure .noRunningLoop)))

/-- A coroutine awaits what it cannot: a coroutine that cannot be claimed, or a group that is awaited. -/
inductive RefusesAwait (w : World β σ) : Target → Failure → Prop
  | coroutine {c : CoroutineRef} {f : Failure} (hf : (w.claim c 0).1 = some f) :
      RefusesAwait w (.coroutine c) f
  | group {g : GroupRef} (hg : w.groupTaken g = true) : RefusesAwait w (.group g) .groupAwaited

/-- Nothing has changed but that numbers of tasks have been used up. -/
structure Spent (w v : World β σ) : Prop where
  handles : v.handles = w.handles
  groups : v.groups = w.groups
  tasks : ∀ t < w.tasks.size, v.tasks.get? t = w.tasks.get? t
  schedulers : ∀ s, ∃ k, v.schedulers.get? s = (w.schedulers.get? s).map fun x =>
    { x with nextTask := x.nextTask + k }
  shared : v.shared = w.shared
  identity : v.nextIdentity = w.nextIdentity
  trace : v.trace = w.trace

/-- A task gets a failure and is ready again; nothing else has changed but the trace. -/
structure Returned (s t : Nat) (f : Failure) (w v : World β σ) : Prop where
  handles : v.handles = w.handles
  groups : v.groups = w.groups
  task : v.tasks.get? t = (w.tasks.get? t).map fun x =>
    { x with inbox := .throw (.ofFailure f), state := .suspended }
  others : ∀ u ≠ t, v.tasks.get? u = w.tasks.get? u
  size : v.tasks.size = w.tasks.size
  schedulers : v.schedulers = (w.enqueue s t).schedulers
  shared : v.shared = w.shared
  identity : v.nextIdentity = w.nextIdentity

theorem Spent.refl (w : World β σ) : w.Spent w where
  handles := rfl
  groups := rfl
  tasks _ _ := rfl
  schedulers s := ⟨0, by cases w.schedulers.get? s <;> rfl⟩
  shared := rfl
  identity := rfl
  trace := rfl

/-! ### Requests -/

/-- Whether a claim fails does not depend on the task. -/
theorem claim_of_refused {c : CoroutineRef} {f : Failure} (h : (w.claim c 0).1 = some f) (task : Nat) :
    w.claim c task = (some f, w) := by
  rw [claim_fst, ← claim_fst w c task] at h
  rcases hc : w.claim c task with ⟨f', w'⟩
  rw [hc] at h
  obtain rfl : f' = some f := h
  rw [claim_eq_some hc]

theorem start_of_refused {c : CoroutineRef} {f : Failure} {s : Nat} (h : w.isActive s = false)
    (hf : (w.claim c 0).1 = some f) :
    w.start s c = (.error (.raise f), (w.newTask s c 0 none).2) := by
  have hf' : ((w.newTask s c 0 none).2.claim c 0).1 = some f := by
    rw [claim_fst] at hf ⊢
    exact hf
  simp only [start, h, claim_of_refused hf']
  rfl

theorem spent_newTask (w : World β σ) (s : Nat) (c : CoroutineRef) :
    w.Spent (w.newTask s c 0 none).2 where
  handles := rfl
  groups := rfl
  tasks t ht := by
    obtain ⟨id, hrow⟩ := w.get?_tasks_newTask s c 0 none
    rw [hrow, if_neg ht.ne]
  schedulers i := by
    refine ⟨if s = i then 1 else 0, ?_⟩
    show (w.modifyScheduler s _).schedulers.get? i = _
    rw [Renumbered.get?_schedulers_modifyScheduler]
    split
    · rfl
    · cases w.schedulers.get? i <;> rfl
  shared := rfl
  identity := rfl
  trace := rfl

theorem run_of_start (bodies : Bodies β σ) (depth : Nat) {s : Nat} {c : CoroutineRef} {e : Abort}
    (h : w.start s c = (.error e, v)) : w.run bodies depth s c = (.error e, v) ∧
      (journal bodies depth).run s c w = [] := by
  simp only [World.run, runWith, journal, resumesOfRun, h, and_self]

theorem Refuses.advance {a a' : Action β σ α} {f : Failure} (h : w.Refuses a f a')
    (bodies : Bodies β σ) (depth : Nat) : ∃ v, a.advance (runner bodies depth) w = some (a', v) ∧
      a.resumes (runner bodies depth) (journal bodies depth) w =
        a'.resumes (runner bodies depth) (journal bodies depth) v ∧
      (v = w ∨ ∃ s c, w.isActive s = false ∧ v = (w.newTask s c 0 none).2) := by
  have hrun : ∀ {s c f v} (next : Except Record Value → Action β σ α),
      w.start s c = (.error (.raise f), v) →
      (Action.run s c next).advance (runner bodies depth) w = some (next (.error (.ofFailure f)), v) ∧
      (Action.run s c next).resumes (runner bodies depth) (journal bodies depth) w =
        (next (.error (.ofFailure f))).resumes (runner bodies depth) (journal bodies depth) v := by
    intro s c f v next hs
    obtain ⟨hr, hj⟩ := run_of_start bodies depth hs
    simp only [Action.advance, Action.resumes, runner_run, hr, hj]
    exact ⟨rfl, rfl⟩
  cases h with
  | @nested s c next h =>
      obtain ⟨ha, hr⟩ := hrun next (start_of_active h c)
      exact ⟨w, ha, hr, .inl rfl⟩
  | @claim s c next f h hf =>
      obtain ⟨ha, hr⟩ := hrun next (start_of_refused h hf)
      exact ⟨_, ha, hr, .inr ⟨s, c, h, rfl⟩⟩
  | joinAll h =>
      refine ⟨w, ?_, ?_, .inl rfl⟩
      · simp only [Action.advance, h]
        rfl
      · simp only [Action.resumes, h]
        rfl

/-- A task number that is used up renumbers a tidy world. -/
theorem Tidy.newTask (h : w.Tidy) {s : Nat} (hs : w.isActive s = false) (c : CoroutineRef) :
    w.Renumbered ⟨s, 1, w.tasks.size, 1, w.trace.toList, w.trace.toList⟩ (fun _ => 0)
      (w.newTask s c 0 none).2 := by
  have hspent := spent_newTask w s c
  refine h.renumbered rfl (.inr (idle_of_isActive hs).2) (idle_of_isActive hs).1 rfl rfl hspent.tasks
    (Table.size_push ..) (fun i => ?_) rfl rfl rfl rfl
  show (w.modifyScheduler s _).schedulers.get? i = _
  rw [Renumbered.get?_schedulers_modifyScheduler, Renumbering.shift]
  by_cases hi : s = i
  · subst hi
    simp only [if_true]
  · rw [if_neg hi, if_neg (Ne.symm hi)]
    cases w.schedulers.get? i <;> rfl

/-! ### Awaits -/

/-- A task that is marked as suspended and gets a failure has got it, in whatever order. -/
theorem returned_of_tasks {s t : Nat} {f : Failure} {f₁ f₂ : Task → Task}
    (hf : ∀ x, f₂ (f₁ x) = { x with inbox := .throw (.ofFailure f), state := .suspended })
    (hhandles : v.handles = w.handles) (hgroups : v.groups = w.groups)
    (htasks : v.tasks = ((w.modifyTask t f₁).modifyTask t f₂).tasks)
    (hschedulers : v.schedulers = (w.enqueue s t).schedulers) (hshared : v.shared = w.shared)
    (hidentity : v.nextIdentity = w.nextIdentity) : w.Returned s t f v where
  handles := hhandles
  groups := hgroups
  task := by
    rw [htasks, get?_tasks_modifyTask, if_pos rfl, get?_tasks_modifyTask, if_pos rfl, Option.map_map]
    exact congrArg (fun f => Option.map f _) (funext hf)
  others u hu := by
    rw [htasks, get?_tasks_modifyTask, if_neg hu.symm, get?_tasks_modifyTask, if_neg hu.symm]
  size := by rw [htasks, size_tasks_modifyTask, size_tasks_modifyTask]
  schedulers := hschedulers
  shared := hshared
  identity := hidentity

theorem returned_deliver (w : World β σ) (s t : Nat) (f : Failure) :
    w.Returned s t f (w.deliver s t (.throw (.ofFailure f))) where
  handles := rfl
  groups := rfl
  task := by rw [get?_tasks_deliver, if_pos rfl]
  others u hu := by rw [get?_tasks_deliver, if_neg hu.symm]
  size := size_tasks_modifyTask ..
  schedulers := rfl
  shared := rfl
  identity := rfl

/-- **An await that is refused returns the failure to its task**, and does nothing else. -/
theorem RefusesAwait.absorb {target : Target} {f : Failure} (h : w.RefusesAwait target f) (s t : Nat)
    (top : CoroutineRef) : ∃ v, w.absorb s t top (.await target) = (.ok (), v) ∧ w.Returned s t f v := by
  cases h with
  | @coroutine c f hf =>
      have hclaim : ((w.modifyTask t fun x => { x with state := .suspended }).claim c 0).1 = some f := by
        rw [claim_fst] at hf ⊢
        exact hf
      simp only [World.absorb, suspend, claim_of_refused hclaim]
      exact ⟨_, rfl, returned_of_tasks (fun _ => rfl) rfl rfl rfl rfl rfl rfl⟩
  | @group g hg =>
      rw [World.absorb, suspend_of_taken hg]
      exact ⟨_, rfl, returned_of_tasks (fun _ => rfl) rfl rfl rfl rfl rfl rfl⟩

/-- Two worlds in which the same failure was returned to a task differ in their traces only. -/
theorem Returned.renumbered {s t : Nat} {f : Failure} {w₀ : World β σ} (h : w₀.Returned s t f w)
    (h' : w₀.Returned s t f v) (htidy : w.Tidy) {i : Nat} (hi : ∃ x, w.schedulers.get? i = some x) :
    w.Renumbered ⟨i, 0, w.tasks.size, 0, w.trace.toList, v.trace.toList⟩ (fun _ => 0) v := by
  have hsize := h'.size.trans h.size.symm
  refine htidy.renumbered rfl (.inl rfl) hi (h'.handles.trans h.handles.symm)
    (h'.groups.trans h.groups.symm) (fun u _ => ?_) hsize (fun j => ?_) (h'.shared.trans h.shared.symm)
    (h'.identity.trans h.identity.symm) rfl rfl
  · by_cases hu : u = t
    · subst hu
      exact h'.task.trans h.task.symm
    · exact (h'.others u hu).trans (h.others u hu).symm
  · rw [h'.schedulers, ← h.schedulers]
    cases w.schedulers.get? j with
    | none => rfl
    | some x => simp [Renumbering.shift]

/-! ### Every moment -/

/-- **Rejected operations leave the world as it was.**  At every moment, an action whose next request is
refused goes on with the failure, and nothing has changed but that numbers of tasks are used up; a task
whose coroutine awaits what it cannot gets the failure, and nothing else has changed but the trace.  The
execution comes to the same result, and all coroutines are resumed with the same inputs, as if the failure
had been delivered without the attempt. -/
theorem Moment.rejected {limit : Option Number} {limits : List (Option Number)} {shared : σ}
    {bodies : Bodies β σ} {rest : Rest β σ γ α} {a : Action β σ α} {depth : Nat}
    (h : Moment (limit :: limits) shared bodies rest a depth w) :
    (∀ f a', w.Refuses a f a' →
      (∃ v, a.advance (runner bodies depth) w = some (a', v) ∧ w.Spent v) ∧
      (rest.finish bodies depth (a.perform (runner bodies depth) w)).1 =
        (rest.finish bodies depth (a'.perform (runner bodies depth) w)).1 ∧
      a.resumes (runner bodies depth) (journal bodies depth) w ++
          rest.resumes bodies depth (a.perform (runner bodies depth) w) =
        a'.resumes (runner bodies depth) (journal bodies depth) w ++
          rest.resumes bodies depth (a'.perform (runner bodies depth) w)) ∧
    ∀ loop s t top input w₁ target w₂ f, TakesUp bodies depth rest a w loop s t top input w₁ →
      w₁.resume bodies depth top input = (.ok (.await target), w₂) → w₂.RefusesAwait target f →
      ∃ v, w₂.absorb s t top (.await target) = (.ok (), v) ∧ w₂.Returned s t f v ∧
        (loop.finish bodies depth (.ok (), v)).1 =
          (loop.finish bodies depth (.ok (), w₂.deliver s t (.throw (.ofFailure f)))).1 ∧
        loop.resumes bodies depth (.ok (), v) =
          loop.resumes bodies depth (.ok (), w₂.deliver s t (.throw (.ofFailure f))) := by
  obtain ⟨⟨⟨num, u, hr⟩, -⟩, hfits⟩ := h.isRenumbered (s := 0) (Nat.zero_lt_succ _)
  constructor
  · intro f a' hrefuses
    obtain ⟨v, ha, hresumes, hv⟩ := hrefuses.advance bodies depth
    rw [hresumes, Action.perform_advance ha]
    rcases hv with rfl | ⟨s, c, hidle, rfl⟩
    · exact ⟨⟨v, ha, .refl v⟩, rfl, rfl⟩
    · have hnew := hr.tidy.newTask hidle c
      have hanchored : rest.Anchored ⟨s, 1, w.tasks.size, 1, w.trace.toList, w.trace.toList⟩
          (fun _ => 0) w.tasks.size := ⟨hfits, fun t ht => if_pos ht, fun _ _ => rfl, fun i hi => if_neg
            fun e => by cases hidle.symm.trans ((congrArg w.isActive e.symm).trans (h.isActive hi))⟩
      obtain ⟨⟨hresult, -⟩, hpending⟩ := Rest.finish_corresponds bodies hanchored depth
        (Renumbering.respects_perform _ bodies depth a' hnew)
      exact ⟨⟨_, ha, spent_newTask w s c⟩, hresult,
        congrArg₂ (· ++ ·) (hnew.resumesOf_perform bodies depth a') hpending⟩
  · intro loop s t top input w₁ target w₂ f ht hresume hrefuses
    obtain ⟨v, hv, hreturned⟩ := hrefuses.absorb s t top
    obtain ⟨-, hloop, -, num₁, u₁, w₁', h₁, hrow, hu, hnum⟩ := hr.takesUp ht hfits
    have hcorresponds := Renumbering.respects_resume _ bodies depth top input h₁
    have hsize := (h₁.corresponds hcorresponds).2
    obtain ⟨-, hle, num₂, hold, h₂⟩ := hcorresponds
    rw [hresume] at h₂ hsize
    have hdelivered := h₂.deliver (hu.trans_le hle) ((hold u₁ hu).trans hnum) (.throw (.ofFailure f))
    rw [← hrow] at hdelivered
    obtain ⟨x, hx⟩ := hdelivered.exists_scheduler
    have hsame := (returned_deliver w₂ s t f).renumbered hreturned hdelivered.tidy
      (i := 0) ⟨_, by rw [hdelivered.schedulers, hx]; rfl⟩
    have hanchored : loop.Anchored ⟨0, 0, (w₂.deliver s t (.throw (.ofFailure f))).tasks.size, 0,
        (w₂.deliver s t (.throw (.ofFailure f))).trace.toList, v.trace.toList⟩ (fun _ => 0)
        (w₂.deliver s t (.throw (.ofFailure f))).tasks.size :=
      ⟨hloop.mono (hsize.trans (returned_deliver w₂ s t f).size.ge), fun t ht => if_pos ht,
        fun _ _ => rfl, fun i _ => by rw [Renumbering.shift]; split <;> rfl⟩
    obtain ⟨⟨hresult, -⟩, hpending⟩ := Rest.finish_corresponds bodies hanchored depth
      (x := (.ok (), w₂.deliver s t (.throw (.ofFailure f)))) (y := (.ok (), v))
      (.of_renumbered hsame rfl le_rfl)
    exact ⟨v, hv, hreturned, hresult, hpending⟩

end World

/-- The body of a coroutine that awaits itself, and ends with the failure of that. -/
def awaitingItself : Bodies Unit Unit where
  resume
    | _, frame, .start => .done (.ok (frame, .await (.coroutine ⟨0, "main"⟩)))
    | _, frame, .throw r => .done (.ok (frame, .raise r))
    | _, frame, .value v => .done (.ok (frame, .ret v))
  forgets _ := true

/-- Makes the coroutine that awaits itself and runs it. -/
def runAwaitingItself : Action Unit Unit Value := .spawn "main" () [] fun c => .run 0 c Action.ofOutcome

/-- The coroutine that awaits itself is busy, and cannot be run again when it has got the failure. -/
theorem awaitingItself_rejected :
    (∃ w v : World Unit Unit, w.absorb 0 0 ⟨0, "main"⟩ (.await (.coroutine ⟨0, "main"⟩)) = (.ok (), v) ∧
      w.Returned 0 0 .coroutineBusy v) ∧
    ∃ v, (Action.run 0 ⟨0, "main"⟩ Action.ofOutcome).advance (World.runner awaitingItself 4)
        (runAwaitingItself.perform (World.runner awaitingItself 4) (World.initial [none] ())).2 =
          some (Action.ofOutcome (.error (.ofFailure .coroutineReuse)), v) ∧
      (runAwaitingItself.perform (World.runner awaitingItself 4) (World.initial [none] ())).2.Spent v := by
  constructor
  · have h : World.Moment [none] () awaitingItself .done (.run 0 ⟨0, "main"⟩ Action.ofOutcome) 4
        ((World.initial [none] ()).spawn "main" () []).2 := ⟨runAwaitingItself, 4, _, .refl, .request .refl rfl⟩
    obtain ⟨v, hv, hreturned, -⟩ := h.rejected.2 _ 0 0 ⟨0, "main"⟩ .start _ (.coroutine ⟨0, "main"⟩) _
      .coroutineBusy (.run (n := 0) rfl rfl rfl rfl (show 0 + (3 + 1) = 4 from rfl)) rfl (.coroutine rfl)
    exact ⟨_, v, hv, hreturned⟩
  · have h : World.Moment [none] () awaitingItself .done (.run 0 ⟨0, "main"⟩ Action.ofOutcome) 4
        (runAwaitingItself.perform (World.runner awaitingItself 4) (World.initial [none] ())).2 :=
      ⟨.run 0 ⟨0, "main"⟩ Action.ofOutcome, 4, _, .more .refl awaitingItself 4 runAwaitingItself, .refl⟩
    exact (h.rejected.1 .coroutineReuse _ (.claim rfl rfl)).1

end Coroutines
