import Coroutines.Proofs.Activity
import Coroutines.Proofs.Events.Story
import Coroutines.Proofs.Joining.Settling

/-!
# What runs report

What happens in a run appends events of its scheduler to the trace and hands out numbers of the scheduler
to new tasks (`World.Reports`); it reports nothing for other schedulers.  So while a run is in progress, the
bodies that are resumed in it report nothing for its scheduler (`World.keeping_ledger`): the scheduler
refuses to start another run.
-/

namespace Coroutines

namespace World

variable {β σ α : Type} {w w' w'' : World β σ} {s t : Nat} {es es' : List Event} {n n' : Nat}

theorem taskId_modifyTask (w : World β σ) (t : Nat) {f : Task → Task} (hf : ∀ x, (f x).id = x.id)
    (u : Nat) : (w.modifyTask t f).taskId u = w.taskId u := by
  simp only [taskId, get?_tasks_modifyTask]
  split
  · rw [Option.map_map, show Task.id ∘ f = Task.id from funext hf]
  · rfl

theorem groupSize_modifyGroup (w : World β σ) (g : GroupRef) (f : Group → Group)
    (hf : ∀ x, (f x).handles = x.handles) : (w.modifyGroup g f).groupSize g = w.groupSize g := by
  rw [groupSize, groupSize, get?_groups_modifyGroup, if_pos rfl, Option.map_map]
  exact congrArg (Option.getD · 0) (congrArg (Option.map · _) (funext fun x => by simp [hf]))

/-- The events of a scheduler. -/
def events (w : World β σ) (s : Nat) : List Event :=
  (w.trace.toList.filter (·.1 = s)).map Prod.snd

/-- The number for the next task of a scheduler. -/
def number? (w : World β σ) (s : Nat) : Option Nat := (w.schedulers.get? s).map Scheduler.nextTask

/-- On the way to another world a scheduler reported some events and handed out some numbers, and the others
did nothing; the tasks kept their numbers. -/
structure Reports (s : Nat) (es : List Event) (n : Nat) (w w' : World β σ) : Prop where
  events : ∀ s', w'.events s' = w.events s' ++ if s' = s then es else []
  number : ∀ s', w'.number? s' = (w.number? s').map (· + if s' = s then n else 0)
  ids : ∀ u < w.tasks.size, u < w'.tasks.size ∧ w'.taskId u = w.taskId u

namespace Reports

theorem trans (h : Reports s es n w w') (h' : Reports s es' n' w' w'') :
    Reports s (es ++ es') (n + n') w w'' where
  events s' := by
    rw [h'.events, h.events, List.append_assoc]
    split <;> rfl
  number s' := by
    rw [h'.number, h.number, Option.map_map]
    refine congrArg (Option.map · _) (funext fun k => ?_)
    rw [Function.comp_apply]
    split <;> omega
  ids u hu := by
    obtain ⟨hu', hid⟩ := h.ids u hu
    obtain ⟨hu'', hid'⟩ := h'.ids u hu'
    exact ⟨hu'', hid'.trans hid⟩

theorem self (h : Reports s es n w w') : w'.events s = w.events s ++ es ∧
    w'.number? s = (w.number? s).map (· + n) := by
  have he := h.events s
  have hn := h.number s
  rw [if_pos rfl] at he hn
  exact ⟨he, hn⟩

/-- Nothing is reported. -/
theorem nothing (htrace : w'.trace = w.trace) (hnumber : ∀ s', w'.number? s' = w.number? s')
    (hsize : w'.tasks.size = w.tasks.size) (hid : ∀ u, w'.taskId u = w.taskId u) (s : Nat) :
    Reports s [] 0 w w' where
  events s' := by simp [World.events, htrace]
  number s' := by simp [hnumber]
  ids u hu := ⟨hsize ▸ hu, hid u⟩

theorem of_eq (htrace : w'.trace = w.trace) (hs : w'.schedulers = w.schedulers)
    (htasks : w'.tasks = w.tasks) (s : Nat) : Reports s [] 0 w w' :=
  .nothing htrace (fun s' => by rw [number?, number?, hs]) (by rw [htasks])
    (fun u => by rw [taskId, taskId, htasks]) s

theorem congr (h : Reports s es n w w') (he : es' = es) (hn : n' = n) : Reports s es' n' w w' := by
  subst he hn
  exact h

theorem refl (w : World β σ) (s : Nat) : Reports s [] 0 w w := .of_eq rfl rfl rfl s

theorem modifyTask (w : World β σ) {t : Nat} {f : Task → Task} (hf : ∀ x, (f x).id = x.id) (s : Nat) :
    Reports s [] 0 w (w.modifyTask t f) :=
  nothing (by rfl) (fun _ => by rfl) (by exact size_tasks_modifyTask ..) (taskId_modifyTask w t hf) s

theorem modifyHandle (w : World β σ) (c : CoroutineRef) (f : Handle β → Handle β) (s : Nat) :
    Reports s [] 0 w (w.modifyHandle c f) := of_eq (by rfl) (by rfl) (by rfl) s

theorem modifyGroup (w : World β σ) (g : GroupRef) (f : Group → Group) (s : Nat) :
    Reports s [] 0 w (w.modifyGroup g f) := of_eq (by rfl) (by rfl) (by rfl) s

theorem emit (w : World β σ) (s : Nat) (e : Event) : Reports s [e] 0 w (w.emit s e) where
  events s' := by
    simp only [World.events, World.emit, Array.toList_push, List.filter_append, List.map_append]
    by_cases h : s = s'
    · simp [h]
    · simp [h, Ne.symm h]
  number s' := by
    show w.number? s' = _
    simp
  ids u hu := ⟨hu, rfl⟩

theorem modifyScheduler (w : World β σ) {s' : Nat} {f : Scheduler → Scheduler}
    (hf : ∀ x, (f x).nextTask = x.nextTask) (s : Nat) : Reports s [] 0 w (w.modifyScheduler s' f) := by
  refine nothing (by rfl) (fun s'' => ?_) (by rfl) (fun _ => by rfl) s
  simp only [number?, World.modifyScheduler, Table.get?_modify]
  split
  · rw [Option.map_map]
    exact congrArg (Option.map · _) (funext hf)
  · rfl

theorem modifyContext (w : World β σ) (s' : Nat) (f : RunContext → RunContext) (s : Nat) :
    Reports s [] 0 w (w.modifyContext s' f) := modifyScheduler w (fun x => by cases x; rfl) s

theorem activate (w : World β σ) (s' root s : Nat) : Reports s [] 0 w (w.activate s' root) :=
  modifyScheduler w (fun x => by cases x; rfl) s

theorem deactivate (w : World β σ) (s' s : Nat) : Reports s [] 0 w (w.deactivate s') :=
  modifyScheduler w (fun x => by cases x; rfl) s

theorem enqueue (w : World β σ) (s' t s : Nat) : Reports s [] 0 w (w.enqueue s' t) := modifyContext w s' _ s

theorem deliver (w : World β σ) (s' t : Nat) (input : Input) (s : Nat) :
    Reports s [] 0 w (w.deliver s' t input) :=
  (modifyTask w (f := fun x => { x with inbox := input, state := .suspended }) (fun _ => rfl) s).trans
    (enqueue ..)

theorem claim (w : World β σ) (c : CoroutineRef) (task s : Nat) :
    Reports s [] 0 w (w.claim c task).2 := by
  unfold World.claim
  split
  · exact .refl w s
  · split
    · exact .refl w s
    · exact .modifyHandle ..

theorem newTask (w : World β σ) (s : Nat) (c : CoroutineRef) (index : Nat) (group : Option GroupRef) :
    Reports s [] 1 w (w.newTask s c index group).2 where
  events s' := by
    show w.events s' = _
    simp
  number s' := by
    show (w.modifyScheduler s _).number? s' = _
    simp only [number?, World.modifyScheduler, Table.get?_modify]
    by_cases h : s = s'
    · subst h
      rw [if_pos rfl, if_pos rfl, Option.map_map, Option.map_map]
      rfl
    · rw [if_neg h, if_neg (Ne.symm h)]
      cases w.schedulers.get? s' <;> rfl
  ids u hu := by
    have hrow : (w.newTask s c index group).2.tasks.get? u = w.tasks.get? u :=
      (Table.get?_push ..).trans (if_neg hu.ne)
    refine ⟨?_, by rw [taskId, taskId, hrow]⟩
    exact hu.trans_le ((Nat.le_succ _).trans_eq (Table.size_push ..).symm)

theorem dequeue {s' : Nat} (h : w.dequeue s' = some (t, w')) (s : Nat) : Reports s [] 0 w w' := by
  obtain ⟨_, _, -, -, rfl⟩ := dequeue_eq_some h
  exact modifyContext ..

end Reports

/-! ### Groups -/

/-- A new task has the next number of its scheduler. -/
theorem taskId_newTask (w : World β σ) (c : CoroutineRef) (index : Nat) (group : Option GroupRef) :
    (w.newTask s c index group).2.taskId w.tasks.size = (w.number? s).getD 0 := by
  rw [taskId_of_get? ((Table.get?_push ..).trans (if_pos rfl))]
  rfl

theorem Reports.addMember (w : World β σ) (s : Nat) (g : GroupRef) (index : Nat) (c : CoroutineRef) :
    Reports s [.taskSpawn ((w.number? s).getD 0) index c.name] 1 w (w.addMember s g index c).2 := by
  have hid : (w.addMember s g index c).2.taskId w.tasks.size = (w.number? s).getD 0 :=
    taskId_newTask w c index (some g)
  rw [← hid]
  exact ((Reports.newTask w s c index (some g)).trans (.modifyGroup ..)).trans (.emit ..)

theorem Reports.startMember (w : World β σ) (s : Nat) (g : GroupRef) (index : Nat) (c : CoroutineRef) :
    Reports s [.taskSpawn ((w.number? s).getD 0) index c.name] 1 w (w.startMember s g index c) := by
  have hadd := Reports.addMember w s g index c
  have hclaim := Reports.claim (w.addMember s g index c).2 c
    ((w.addMember s g index c).2.taskId (w.addMember s g index c).1) s
  simp only [World.startMember]
  split
  · next f w' e =>
      rw [e] at hclaim
      exact (hadd.trans hclaim).trans (.modifyTask _ (by exact fun _ => rfl) s)
  · next w' e =>
      rw [e] at hclaim
      exact (hadd.trans hclaim).trans (.enqueue ..)

/-- The members of a group become tasks, numbered from the next number on. -/
theorem Reports.startMembers (w : World β σ) (s : Nat) (g : GroupRef) (index : Nat)
    (cs : List CoroutineRef) : ∃ es, Reports s es cs.length w (w.startMembers s g index cs) ∧
      ∀ k, w.number? s = some k →
        es = cs.mapIdx fun j c => .taskSpawn (k + j) (index + j) c.name := by
  induction cs generalizing w index with
  | nil => exact ⟨[], .refl w s, fun _ _ => rfl⟩
  | cons c rest ih =>
      have hfirst := Reports.startMember w s g index c
      obtain ⟨es, hrest, hes⟩ := ih (w.startMember s g index c) (index + 1)
      refine ⟨_, (hfirst.trans hrest).congr rfl (Nat.add_comm ..), fun k hk => ?_⟩
      have hnext : (w.startMember s g index c).number? s = some (k + 1) := by
        rw [hfirst.self.2, hk]
        rfl
      rw [hes _ hnext, hk, List.mapIdx_cons]
      simp [Nat.add_assoc, Nat.add_comm 1]

/-- A group that is not quiescent is not closed; closing reports the end of a join. -/
theorem Reports.closeGroup (w : World β σ) (s : Nat) (g : GroupRef) :
    ∃ es, Reports s es 0 w (w.closeGroup s g).2 ∧ (w.quiescent g = false → es = []) ∧
      ∀ e ∈ es, ∃ p ok, e = .joinEnd p ok := by
  cases hq : w.quiescent g with
  | false =>
      have hsame : (w.closeGroup s g).2 = w := by simp [World.closeGroup, hq]
      rw [hsame]
      exact ⟨[], .refl w s, fun _ => rfl, by simp⟩
  | true =>
      simp only [World.closeGroup, hq, if_true, settleGroup]
      split
      · exact ⟨[], .refl w s, by simp, by simp⟩
      · next parent _ =>
          have hsettle : Reports s [] 0 w (w.settle g).2 := by
            unfold settle
            split <;> exact .of_eq (by rfl) (by rfl) (by rfl) s
          split
          · next e =>
              rw [e] at hsettle
              exact ⟨[], hsettle, by simp, by simp⟩
          · next e =>
              rw [e] at hsettle
              exact ⟨_, ((hsettle.trans (.modifyTask _ (by exact fun _ => rfl) s)).trans (.emit ..)).trans
                (.enqueue ..), by simp, fun e he => ⟨_, _, by simpa using he⟩⟩

theorem Reports.opening (w : World β σ) (s t : Nat) (g : GroupRef) :
    Reports s [.joinStart (w.taskId t) (w.groupSize g)] 0 w (w.opening s t g) := by
  rw [← groupSize_modifyGroup w g (fun x => { x with awaitedBy := some t }) fun _ => rfl]
  exact (Reports.modifyGroup w g _ s).trans (.emit ..)

/-- The start of a group reports the start of a join and the new tasks of the members. -/
theorem Reports.enlist (w : World β σ) (s t : Nat) (g : GroupRef) (cs : List CoroutineRef) : ∃ es,
    Reports s es cs.length w ((w.opening s t g).startMembers s g 0 cs) ∧ ∀ k, w.number? s = some k →
      es = .joinStart (w.taskId t) (w.groupSize g) :: spawns k (cs.map CoroutineRef.name) := by
  obtain ⟨es, hmembers, hes⟩ := Reports.startMembers (w.opening s t g) s g 0 cs
  refine ⟨_, ((Reports.opening w s t g).trans hmembers).congr rfl (Nat.zero_add _).symm, fun k hk => ?_⟩
  have hspawns : spawns k (cs.map CoroutineRef.name) =
      cs.mapIdx fun j c => .taskSpawn (k + j) (0 + j) c.name := by
    refine List.ext_getElem? fun j => ?_
    simp only [spawns, List.getElem?_mapIdx, List.getElem?_map, Option.map_map, Nat.zero_add]
    rfl
  rw [hes k hk, hspawns]
  rfl

/-! ### Turns -/

theorem Reports.finish (w : World β σ) (s t : Nat) (outcome : Outcome) :
    ∃ es, Reports s es 0 w (w.finish s t outcome).2 := by
  simp only [World.finish]
  split
  · exact ⟨_, .modifyTask w (by exact fun _ => rfl) s⟩
  · next x _ =>
      have hended := (Reports.modifyTask w (t := t) (f := (·.ended outcome)) (fun _ => rfl) s).trans
        (.emit _ s (.taskEnd x.id x.index outcome.isOk))
      split
      · exact ⟨_, hended⟩
      · next g _ =>
          obtain ⟨es, hclose, -⟩ := Reports.closeGroup
            ((w.modifyTask t (·.ended outcome)).emit s (.taskEnd x.id x.index outcome.isOk)) s g
          exact ⟨_, hended.trans hclose⟩

theorem Reports.unwind (w : World β σ) (s t : Nat) (top : CoroutineRef) (outcome : Outcome) :
    ∃ es, Reports s es 0 w (w.unwind s t top outcome).2 := by
  have hpop : Reports s [] 0 w
      ((w.modifyTask t fun x => { x with chain := x.chain.tail }).release top) :=
    (Reports.modifyTask w (f := fun x => { x with chain := x.chain.tail }) (fun _ => rfl) s).trans
      (.modifyHandle ..)
  simp only [World.unwind]
  split
  · obtain ⟨es, hfinish⟩ := Reports.finish
      ((w.modifyTask t fun x => { x with chain := x.chain.tail }).release top) s t outcome
    exact ⟨_, hpop.trans hfinish⟩
  · exact ⟨_, hpop.trans (.deliver ..)⟩

/-- A task that awaits a coroutine reports so, whether it can claim the coroutine or not. -/
theorem Reports.suspend_coroutine (w : World β σ) (s t : Nat) (c : CoroutineRef) :
    Reports s [.taskSuspend (w.taskId t) c.name] 0 w (w.suspend s t (.coroutine c)).2 := by
  have hclaim := (Reports.modifyTask w (t := t) (f := fun x => { x with state := .suspended })
    (fun _ => rfl) s).trans (.claim _ c
      ((w.modifyTask t fun x => { x with state := .suspended }).taskId t) s)
  rcases hcl : (w.modifyTask t fun x => { x with state := .suspended }).claim c
    ((w.modifyTask t fun x => { x with state := .suspended }).taskId t) with ⟨failure, w₂⟩
  rw [hcl] at hclaim
  obtain ⟨w₃, hw₃, he⟩ := World.suspend_coroutine (s := s) rfl hcl
  have hinput : Reports s [] 0 w w₃ := hw₃ ▸ hclaim.trans (.modifyTask _ (by cases failure <;> simp) s)
  have htasks := tasks_claim (w.modifyTask t fun x => { x with state := .suspended }) c
    ((w.modifyTask t fun x => { x with state := .suspended }).taskId t)
  rw [hcl] at htasks
  have hid : w₃.taskId t = w.taskId t := by
    rw [hw₃, taskId_modifyTask w₂ t (by cases failure <;> simp), taskId, htasks, ← taskId]
    exact taskId_modifyTask w t (by exact fun _ => rfl) t
  rw [he, ← hid]
  exact (hinput.trans (.emit ..)).trans (.enqueue ..)

theorem Reports.suspend (w : World β σ) (s t : Nat) (target : Target) :
    ∃ es n, Reports s es n w (w.suspend s t target).2 := by
  cases target with
  | coroutine c => exact ⟨_, _, .suspend_coroutine w s t c⟩
  | group g =>
      have hsuspended := Reports.modifyTask w (t := t) (f := fun x => { x with state := .suspended })
        (fun _ => rfl) s
      simp only [World.suspend]
      split
      · exact ⟨_, _, hsuspended.trans (.deliver ..)⟩
      · rw [startGroup_eq]
        generalize (((w.modifyTask t fun x => { x with state := .suspended }).groups.get? g.id).map
          Group.handles).getD [] = cs
        obtain ⟨es, hstart, -⟩ := Reports.enlist
          (w.modifyTask t fun x => { x with state := .suspended }) s t g cs
        obtain ⟨es', hclose, -⟩ := Reports.closeGroup
          (((w.modifyTask t fun x => { x with state := .suspended }).opening s t g).startMembers s g 0 cs) s g
        exact ⟨_, _, (hsuspended.trans hstart).trans hclose⟩

theorem Reports.absorb (w : World β σ) (s t : Nat) (top : CoroutineRef) (step : Step) :
    ∃ es n, Reports s es n w (w.absorb s t top step).2 := by
  cases step with
  | await target => exact Reports.suspend w s t target
  | ret v => exact (Reports.unwind w s t top (.ok v)).imp fun _ h => ⟨0, h⟩
  | raise r => exact (Reports.unwind w s t top (.error r)).imp fun _ h => ⟨0, h⟩

/-- Taking a task up reports nothing, or that the run is at its limit. -/
theorem Reports.takeUp (w : World β σ) (s t : Nat) : ∃ es, Reports s es 0 w (w.takeUp s t).2 ∧
    ∀ x, (w.takeUp s t).1 = .ok x → es = [] := by
  rw [takeUp_eq]
  split
  · exact ⟨[], .refl w s, fun _ _ => rfl⟩
  · split
    · exact ⟨_, (Reports.modifyContext w s _ s).trans (.emit ..), fun _ h => by cases h⟩
    · exact ⟨_, (Reports.modifyContext w s _ s).trans (.modifyTask _ (by exact fun _ => rfl) s), fun _ _ => rfl⟩

/-- A run that starts reports so, and its root gets the next number. -/
theorem Reports.start (w : World β σ) (s : Nat) (c : CoroutineRef) :
    ∃ es n, Reports s es n w (w.start s c).2 ∧ ∀ root, (w.start s c).1 = .ok root →
      es = [.runStart c.name] ∧ n = 1 ∧ (w.start s c).2.taskId root = (w.number? s).getD 0 := by
  have hid := taskId_newTask w (s := s) c 0 none
  simp only [World.start]
  split
  · exact ⟨_, _, .refl w s, fun _ h => by cases h⟩
  · have hclaim := (Reports.newTask w s c 0 none).trans (.claim _ c
      ((w.newTask s c 0 none).2.taskId (w.newTask s c 0 none).1) s)
    have htasks := tasks_claim (w.newTask s c 0 none).2 c
      ((w.newTask s c 0 none).2.taskId (w.newTask s c 0 none).1)
    split
    · next e =>
        rw [e] at hclaim
        exact ⟨_, _, hclaim, fun _ h => by cases h⟩
    · next w' e =>
        rw [e] at hclaim htasks
        refine ⟨_, _, (hclaim.trans (.activate ..)).trans (.emit ..), fun root hroot => ⟨rfl, rfl, ?_⟩⟩
        cases hroot
        rw [← hid]
        show w'.taskId w.tasks.size = _
        rw [taskId, htasks]
        rfl

theorem Reports.conclude (w : World β σ) (s root : Nat) (c : CoroutineRef) :
    ∃ es, Reports s es 0 w (w.conclude s root c).2 := by
  unfold World.conclude
  split
  · exact ⟨_, .refl w s⟩
  · exact ⟨_, .emit ..⟩

/-! ### Schedulers of runs in progress -/

/-- The events and the next number of a scheduler. -/
def ledger (w : World β σ) (s : Nat) : List Event × Option Nat := (w.events s, w.number? s)

theorem Reports.ledger_of_ne (h : Reports s es n w w') {s' : Nat} (hne : s ≠ s') :
    w'.ledger s' = w.ledger s' := by
  simp [ledger, h.events, h.number, Ne.symm hne]

theorem Reports.ledger_of_nothing (h : Reports s [] 0 w w') : w'.ledger s = w.ledger s := by
  simp [ledger, h.events, h.number]

section

variable {bodies : Bodies β σ} {fuel k : Nat} {limit : Option Number} {y : List Event × Option Nat}

/-- A run of a scheduler is in progress, with some resumes, and the scheduler has reported some events. -/
def Underway (s k : Nat) (limit : Option Number) (y : List Event × Option Nat) (w : World β σ) : Prop :=
  w.gauge s = some (some k, limit) ∧ w.ledger s = y

theorem ambient_underway : Ambient (Underway s k limit y : World β σ → Prop) := by
  intro w w' _ hs htrace hgroups h
  have hledger : w'.ledger s = w.ledger s := by simp only [ledger, events, number?, htrace, hs]
  exact ⟨ambient_gauge s _ (by assumption) hs htrace hgroups h.1, hledger.trans h.2⟩

/-- A run of another scheduler reports nothing for it, if the resumes in it do not. -/
theorem underway_run_of_ne {s' : Nat} (hne : s' ≠ s)
    (hres : ∀ c input, Keeping (Underway s k limit y : World β σ → Prop) (World.resume bodies fuel c input))
    (c : CoroutineRef) : Keeping (Underway s k limit y : World β σ → Prop) (World.run bodies fuel s' c) := by
  intro w hw
  refine ⟨keeping_gauge_run (keeping_gauge s _) s' c hw.1, ?_⟩
  have hstart : (w.start s' c).2.Underway s k limit y := by
    obtain ⟨es, n, hr, -⟩ := Reports.start w s' c
    exact ⟨((gauge_start w s s' c).trans (if_neg fun e => hne e.1)).trans hw.1,
      (hr.ledger_of_ne hne).trans hw.2⟩
  have hturn : ∀ ⦃w w' : World β σ⦄ ⦃t⦄, w.Underway s k limit y → w.dequeue s' = some (t, w') →
      (w'.step (World.resume bodies fuel) s' t).2.Underway s k limit y := by
    intro w w' t hw hd
    have htaken : (w'.takeUp s' t).2.Underway s k limit y := by
      obtain ⟨es, hr, -⟩ := Reports.takeUp w' s' t
      exact ⟨(gauge_takeUp_of_ne hne t).trans ((gauge_dequeue s hd).trans hw.1),
        (hr.ledger_of_ne hne).trans (((Reports.dequeue hd s').ledger_of_ne hne).trans hw.2)⟩
    have habsorb : ∀ top step, Keeping (Underway s k limit y : World β σ → Prop)
        fun w => w.absorb s' t top step := by
      intro top step w hw
      obtain ⟨es, n, hr⟩ := Reports.absorb w s' t top step
      exact ⟨(gauge_absorb ..).trans hw.1, (hr.ledger_of_ne hne).trans hw.2⟩
    rw [step_eq]
    rcases hu : w'.takeUp s' t with ⟨e | - | ⟨top, input⟩, w₁⟩ <;> rw [hu] at htaken
    · exact htaken
    · exact htaken
    · exact (hres top input).andThen (habsorb top) htaken
  rw [World.run, runWith_eq]
  rcases hs : w.start s' c with ⟨e | root, w₁⟩ <;> rw [hs] at hstart
  · exact hstart.2
  · have hdrain := Keeping.drain hturn fuel hstart
    have hidle : ∀ v : World β σ, ((v.release c).deactivate s').ledger s = v.ledger s := fun v =>
      ((Reports.modifyHandle v c Handle.released s').trans (.deactivate ..)).ledger_of_ne hne
    simp only [World.andThen, hidle]
    rcases hr : World.drain (World.resume bodies fuel) s' fuel w₁ with ⟨e | ⟨⟩, w₂⟩ <;> rw [hr] at hdrain
    · exact hdrain.2
    · obtain ⟨es, hconclude⟩ := Reports.conclude w₂ s' root c
      exact (hconclude.ledger_of_ne hne).trans hdrain.2

/-- **While a run is in progress, what bodies do reports nothing for its scheduler**, by induction on how
deep runs may nest. -/
theorem keeping_underway (s k : Nat) (limit : Option Number) (y : List Event × Option Nat) (c : CoroutineRef)
    (input : Input) : Keeping (Underway s k limit y : World β σ → Prop) (World.resume bodies fuel c input) := by
  refine Keeping.resume ambient_underway (fun fuel hres s' c => ?_) fuel c input
  by_cases hne : s' = s
  · subst hne
    intro w hw
    have hactive : w.isActive s' = true := by
      rw [isActive_eq_gauge, hw.1]
      rfl
    rw [run_of_active hactive]
    exact hw
  · exact underway_run_of_ne hne hres c

end

end World

end Coroutines
