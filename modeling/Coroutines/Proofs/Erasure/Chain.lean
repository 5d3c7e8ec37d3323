import Coroutines.Proofs.Erasure.Simulation

/-!
# Chains of awaits

A run in which no group is awaited has one task, whose chain grows by one coroutine with every await
and shrinks by one with every end.  `World.Alone` describes such a run between two steps; the lemmas
say what one step of it does to the chain, and that it leaves all other coroutines alone.
-/

namespace Coroutines

namespace World

variable {β σ : Type}

/-- A run of the first scheduler, without a limit, whose only task has a chain, an input and an
outcome; the queue is as given. -/
structure Alone (w : World β σ) (t : Nat) (ready : List Nat) (chain : List CoroutineRef)
    (inbox : Input) (outcome : Option Outcome) : Prop where
  scheduler : ∃ next steps, w.schedulers.get? 0 = some ⟨next, some ⟨t, ready, steps⟩, none⟩
  task : ∃ x, w.tasks.get? t = some x ∧ x.group = none ∧ x.chain = chain ∧ x.inbox = inbox ∧
    x.outcome = outcome

/-- Every coroutine but `c` stays as it is. -/
def SparesOthers (c : CoroutineRef) (w w' : World β σ) : Prop :=
  ∀ i, i ≠ c.id → ∀ x, w.handles.get? i = some x → w'.handles.get? i = some x

theorem SparesOthers.of_eq {c : CoroutineRef} {w w' : World β σ} (h : w'.handles = w.handles) :
    SparesOthers c w w' := fun i _ x hx => by rw [h]; exact hx

theorem SparesOthers.trans {c : CoroutineRef} {w w' w'' : World β σ} (h : SparesOthers c w w')
    (h' : SparesOthers c w' w'') : SparesOthers c w w'' := fun i hi x hx => h' i hi x (h i hi x hx)

theorem SparesOthers.modifyHandle (c : CoroutineRef) (w : World β σ) (f : Handle β → Handle β) :
    SparesOthers c w (w.modifyHandle c f) := fun _ hi _ hx => w.get?_handles_modifyHandle_of_ne c f hi hx

section

variable {w : World β σ} {t : Nat} {ready : List Nat} {chain : List CoroutineRef} {inbox : Input}
  {outcome : Option Outcome}

theorem Alone.restore (h : w.Alone t ready chain inbox outcome) (st : σ × Nat) :
    (w.restore st).Alone t ready chain inbox outcome := ⟨h.scheduler, h.task⟩

theorem Alone.modifyHandle (h : w.Alone t ready chain inbox outcome) (c : CoroutineRef)
    (f : Handle β → Handle β) : (w.modifyHandle c f).Alone t ready chain inbox outcome :=
  ⟨h.scheduler, h.task⟩

theorem Alone.emit (h : w.Alone t ready chain inbox outcome) (s : Nat) (e : Event) :
    (w.emit s e).Alone t ready chain inbox outcome := ⟨h.scheduler, h.task⟩

theorem Alone.modifyTask {chain' : List CoroutineRef} {inbox' : Input} {outcome' : Option Outcome}
    (h : w.Alone t ready chain inbox outcome) {f : Task → Task}
    (hf : ∀ x : Task, x.group = none → x.chain = chain → x.inbox = inbox → x.outcome = outcome →
      (f x).group = none ∧ (f x).chain = chain' ∧ (f x).inbox = inbox' ∧ (f x).outcome = outcome') :
    (w.modifyTask t f).Alone t ready chain' inbox' outcome' := by
  obtain ⟨x, hx, hg, hc, hi, ho⟩ := h.task
  refine ⟨h.scheduler, f x, ?_, hf x hg hc hi ho⟩
  rw [get?_tasks_modifyTask, if_pos rfl, hx, Option.map_some]

theorem Alone.modifyContext {ready' : List Nat} (h : w.Alone t ready chain inbox outcome)
    {f : RunContext → RunContext}
    (hf : ∀ steps, ∃ steps', f ⟨t, ready, steps⟩ = ⟨t, ready', steps'⟩) :
    (w.modifyContext 0 f).Alone t ready' chain inbox outcome := by
  obtain ⟨next, steps, hs⟩ := h.scheduler
  obtain ⟨steps', hf⟩ := hf steps
  refine ⟨⟨next, steps', ?_⟩, h.task⟩
  simp [World.modifyContext, modifyScheduler, Table.get?_modify_self, hs, hf]

theorem Alone.enqueue (h : w.Alone t [] chain inbox outcome) :
    (w.enqueue 0 t).Alone t [t] chain inbox outcome :=
  h.modifyContext fun steps => ⟨steps, rfl⟩

theorem Alone.deliver (h : w.Alone t [] chain inbox outcome) (input : Input) :
    (w.deliver 0 t input).Alone t [t] chain input outcome :=
  (h.modifyTask (f := fun x => { x with inbox := input, state := .suspended })
    fun _ hg hc _ ho => ⟨hg, hc, rfl, ho⟩).enqueue

end

/-! ### Taking the task up -/

variable {resume : CoroutineRef → Input → World β σ → Except Abort Step × World β σ}
  {w : World β σ} {t : Nat} {c : CoroutineRef} {rest : List CoroutineRef} {input : Input}

/-- The run is over when the queue is empty. -/
theorem Alone.drain_nil {chain : List CoroutineRef} {outcome : Option Outcome}
    (h : w.Alone t [] chain input outcome) (m : Nat) : drain resume 0 (m + 1) w = (.ok (), w) := by
  obtain ⟨next, steps, hs⟩ := h.scheduler
  simp [drain, dequeue, context?, hs]

variable (resume) in
/-- A turn of the only task resumes the coroutine at the head of its chain. -/
theorem Alone.drain_turn (h : w.Alone t [t] (c :: rest) input none) :
    ∃ w', w'.Alone t [] (c :: rest) .start none ∧ w'.handles = w.handles ∧ w'.store = w.store ∧
      ∀ m, drain resume 0 (m + 1) w = andThen (fun _ w => drain resume 0 m w)
        (andThen (fun step w => w.absorb 0 t c step) (resume c input w')) := by
  obtain ⟨next, steps, hs⟩ := h.scheduler
  obtain ⟨x, hx, hg, hc, hi, ho⟩ := h.task
  -- the task leaves the queue, its turn is counted and its row is marked
  have hqueue : (w.modifyContext 0 fun ctx => { ctx with ready := [] }).Alone t [] (c :: rest) input
      none := h.modifyContext fun steps => ⟨steps, rfl⟩
  have hcounted : ((w.modifyContext 0 fun ctx => { ctx with ready := [] }).counted 0).Alone t []
      (c :: rest) input none := hqueue.modifyContext fun steps => ⟨steps + 1, rfl⟩
  refine ⟨((w.modifyContext 0 fun ctx => { ctx with ready := [] }).counted 0).taken t,
    hcounted.modifyTask fun _ hg hc _ ho => ⟨hg, hc, rfl, ho⟩, rfl, rfl, fun m => ?_⟩
  have hdequeue : w.dequeue 0 =
      some (t, w.modifyContext 0 fun ctx => { ctx with ready := [] }) := by
    simp [dequeue, context?, hs]
  obtain ⟨next', steps', hs'⟩ := hcounted.scheduler
  have htakeUp : (w.modifyContext 0 fun ctx => { ctx with ready := [] }).takeUp 0 t =
      (.ok (some (c, input)),
        ((w.modifyContext 0 fun ctx => { ctx with ready := [] }).counted 0).taken t) := by
    simp only [takeUp_eq, exceeded?, hs', tasks_modifyContext, hx, hc, hi, Option.bind_some,
      List.head?_cons, Option.map_some]
  simp only [drain, hdequeue, step_eq, htakeUp, andThen, Option.elim_some]
  split
  · next e => simp only [e]
  · next e => simp only [e]

/-! ### Resumes of the coroutine at the head -/

/-- Goes on with a run from what the resume of the coroutine at the head of the chain came to. -/
def proceed (resume : CoroutineRef → Input → World β σ → Except Abort Step × World β σ) (t : Nat)
    (c : CoroutineRef) (frame : Frame) (m : Nat) (x : Except Abort (Frame × Step) × World β σ) :
    Except Abort Unit × World β σ :=
  andThen (fun _ w => drain resume 0 m w)
    (andThen (fun step w => w.absorb 0 t c step) (x.2.leave c frame x.1))

/-- Goes on with a run after the coroutine at the head of the chain came to its end. -/
def settled (resume : CoroutineRef → Input → World β σ → Except Abort Step × World β σ) (t : Nat)
    (c : CoroutineRef) (m : Nat) (r : Except Abort Value) (w : World β σ) :
    Except Abort Unit × World β σ :=
  andThen (fun outcome w => andThen (fun _ w => drain resume 0 m w) (w.unwind 0 t c outcome))
    (splitScript r, w)

/-- How a body ends when it does not await. -/
inductive Finishes : Except Abort (Frame × Step) → Except Abort Value → Prop
  | ret (frame : Frame) (v : Value) : Finishes (.ok (frame, .ret v)) (.ok v)
  | raise (frame : Frame) (r : Record) : Finishes (.ok (frame, .raise r)) (.error (.script r))
  | error (e : Abort) : Finishes (.error e) (.error e)

/-- A turn of the only task carries out the body of the coroutine at the head of its chain. -/
theorem Alone.drain_proceed (bodies : Bodies β σ) (runner : Runner β σ)
    (h : w.Alone t [t] (c :: rest) input none) {x : Handle β}
    (hx : w.handles.get? c.id = some x) (hin : x.refusal? input = none) :
    ∃ w', w'.Alone t [] (c :: rest) .start none ∧ SparesOthers c w w' ∧ w'.store = w.store ∧
      (∃ x', w'.handles.get? c.id = some x' ∧ x'.body = x.body) ∧
      ∀ m, drain (resumeWith bodies (Action.perform runner)) 0 (m + 1) w =
        proceed (resumeWith bodies (Action.perform runner)) t c x.frame m
          ((bodies.resume x.body x.frame input).perform runner w') := by
  obtain ⟨w', hw', hhandles, hstore, hdrain⟩ :=
    h.drain_turn (resumeWith bodies (Action.perform runner))
  rw [← hhandles] at hx
  have henter : w'.enter bodies c input = (.ok (x.frame, bodies.resume x.body x.frame input),
      w'.modifyHandle c (·.entered (!input.isStart && bodies.forgets x.body))) := by
    simp only [enter, hx, hin]
  refine ⟨_, hw'.modifyHandle c (·.entered (!input.isStart && bodies.forgets x.body)),
    (SparesOthers.of_eq hhandles).trans (SparesOthers.modifyHandle c w' _), hstore,
    ⟨x.entered (!input.isStart && bodies.forgets x.body), ?_, rfl⟩, fun m => ?_⟩
  · exact get?_modifyHandle_self hx _
  · rw [hdrain, resumeWith, henter]
    rfl

/-- A fresh coroutine is claimed and put at the head of the chain. -/
theorem Alone.suspend_fresh {chain : List CoroutineRef} (h : w.Alone t [] chain .start none)
    {x : Handle β} (hx : w.handles.get? c.id = some x) (hs : x.status = .created)
    (ho : x.owner = none) :
    ∃ w' task, w'.Alone t [t] (c :: chain) .start none ∧ w'.store = w.store ∧
      w'.handles = (w.modifyHandle c (·.ownedBy task)).handles ∧
      w.suspend 0 t (.coroutine c) = (.ok (), w') := by
  have hmarked := h.modifyTask (f := fun x => { x with state := .suspended })
    fun _ hg hc hi ho => ⟨hg, hc, hi, ho⟩
  generalize hu : (w.modifyTask t fun x => { x with state := .suspended }) = u at hmarked
  have hclaim : u.claim c (u.taskId t) = (none, u.modifyHandle c (·.ownedBy (u.taskId t))) := by
    have hget : u.handles.get? c.id = some x := by
      rw [← hu]
      exact hx
    simp only [claim, hget, Handle.claimFailure?_eq_none_iff.mpr ⟨hs, ho⟩]
  have hlinked := (hmarked.modifyHandle c (·.ownedBy (u.taskId t))).modifyTask
    (f := fun x => { x with chain := c :: x.chain }) fun _ hg hc hi ho =>
      ⟨hg, congrArg (c :: ·) hc, hi, ho⟩
  generalize hv : ((u.modifyHandle c (·.ownedBy (u.taskId t))).modifyTask t
    fun x => { x with chain := c :: x.chain }) = v at hlinked
  refine ⟨_, u.taskId t, (hlinked.emit 0 (.taskSuspend (v.taskId t) c.name)).enqueue, ?_, ?_, ?_⟩
  · rw [← hv, ← hu]
    rfl
  · rw [← hv, ← hu]
    rfl
  · simp only [suspend, hu, hclaim, hv]

variable (resume) in
/-- A body that awaits a fresh coroutine puts it at the head of the chain. -/
theorem Alone.proceed_await (h : w.Alone t [] (c :: rest) .start none) {x x' : Handle β}
    (c' : CoroutineRef) (hx : w.handles.get? c.id = some x) (hx' : w.handles.get? c'.id = some x')
    (hs : x'.status = .created) (ho : x'.owner = none) (hne : c'.id ≠ c.id) (frame frame' : Frame) :
    ∃ w', w'.Alone t [t] (c' :: c :: rest) .start none ∧ w'.store = w.store ∧
      (∀ i, i ≠ c.id → i ≠ c'.id → ∀ y, w.handles.get? i = some y → w'.handles.get? i = some y) ∧
      w'.handles.get? c.id = some (x.left frame' (.await (.coroutine c'))) ∧
      (∃ task, w'.handles.get? c'.id = some (x'.ownedBy task)) ∧
      ∀ m, proceed resume t c frame m (.ok (frame', .await (.coroutine c')), w) =
        drain resume 0 m w' := by
  have hleft := h.modifyHandle c (·.left frame' (.await (.coroutine c')))
  have hget := w.get?_handles_modifyHandle_of_ne c (·.left frame' (.await (.coroutine c'))) hne hx'
  obtain ⟨w', task, hw', hstore, hhandles, hsuspend⟩ := hleft.suspend_fresh hget hs ho
  refine ⟨w', hw', hstore, fun i hi hi' y hy => ?_, ?_, ⟨task, ?_⟩, fun m => ?_⟩
  · rw [hhandles]
    exact get?_handles_modifyHandle_of_ne _ c' _ hi' (w.get?_handles_modifyHandle_of_ne c _ hi hy)
  · rw [hhandles, get?_handles_modifyHandle, if_neg hne, get?_handles_modifyHandle, if_pos rfl, hx,
      Option.map_some]
  · rw [hhandles, get?_modifyHandle_self hget]
  · simp only [proceed, leave, andThen, absorb, hsuspend]

variable (resume) in
/-- A body that ends without awaiting has come to the end of its coroutine. -/
theorem Alone.proceed_finishes (h : w.Alone t [] (c :: rest) .start none)
    {x : Except Abort (Frame × Step)} {r : Except Abort Value} (hr : Finishes x r) (frame : Frame) :
    ∃ w', w'.Alone t [] (c :: rest) .start none ∧ SparesOthers c w w' ∧ w'.store = w.store ∧
      ∀ m, proceed resume t c frame m (x, w) = settled resume t c m r w' := by
  cases hr with
  | ret frame' v => exact ⟨_, h.modifyHandle c _, SparesOthers.modifyHandle c w _, rfl, fun m => rfl⟩
  | raise frame' r => exact ⟨_, h.modifyHandle c _, SparesOthers.modifyHandle c w _, rfl, fun m => rfl⟩
  | error e =>
      cases e with
      | script r => exact ⟨_, h.modifyHandle c _, SparesOthers.modifyHandle c w _, rfl, fun m => rfl⟩
      | _ => exact ⟨_, h.modifyHandle c _, SparesOthers.modifyHandle c w _, rfl, fun m => rfl⟩

variable (resume) in
/-- The end of an awaited coroutine is handed to the one that awaits it. -/
theorem Alone.settled_next {c' : CoroutineRef} (h : w.Alone t [] (c :: c' :: rest) .start none)
    {r : Except Abort Value} {outcome : Outcome} (hr : splitScript r = .ok outcome) :
    ∃ w', w'.Alone t [t] (c' :: rest) outcome.input none ∧ SparesOthers c w w' ∧ w'.store = w.store ∧
      ∀ m, settled resume t c m r w = drain resume 0 m w' := by
  have htail := (h.modifyTask (f := fun x => { x with chain := x.chain.tail })
    fun _ hg hc hi ho => ⟨hg, congrArg List.tail hc, hi, ho⟩).modifyHandle c Handle.released
  refine ⟨_, htail.deliver outcome.input, SparesOthers.modifyHandle c w Handle.released, rfl, fun m => ?_⟩
  obtain ⟨x, hx, hg, hc, hi, ho⟩ := htail.task
  have hchain : (((((w.modifyTask t fun x => { x with chain := x.chain.tail }).release c).tasks.get?
      t).map fun x => x.chain.isEmpty).getD true) = false := by
    rw [show ((w.modifyTask t fun x => { x with chain := x.chain.tail }).release c).tasks.get? t =
      some x from hx, Option.map_some, Option.getD_some, hc]
    rfl
  simp only [settled, hr, andThen, unwind, hchain, Bool.false_eq_true, if_false]
  rfl

variable (resume) in
/-- The end of the root coroutine ends the task. -/
theorem Alone.settled_root (h : w.Alone t [] [c] .start none)
    {r : Except Abort Value} {outcome : Outcome} (hr : splitScript r = .ok outcome) :
    ∃ w', w'.Alone t [] [] .start (some outcome) ∧ w'.store = w.store ∧
      ∀ m, settled resume t c m r w = drain resume 0 m w' := by
  have htail := (h.modifyTask (f := fun x => { x with chain := x.chain.tail })
    fun _ hg hc hi ho => ⟨hg, congrArg List.tail hc, hi, ho⟩).modifyHandle c Handle.released
  obtain ⟨x, hx, hg, hc, hi, ho⟩ := htail.task
  have hended := htail.modifyTask (f := (·.ended outcome))
    fun _ hg hc hi _ => ⟨hg, hc, hi, rfl⟩
  refine ⟨_, hended.emit 0 (.taskEnd x.id x.index outcome.isOk), rfl, fun m => ?_⟩
  have hx' : ((w.modifyTask t fun x => { x with chain := x.chain.tail }).release c).tasks.get? t =
    some x := hx
  have hchain : (((((w.modifyTask t fun x => { x with chain := x.chain.tail }).release c).tasks.get?
      t).map fun x => x.chain.isEmpty).getD true) = true := by
    rw [hx', Option.map_some, Option.getD_some, hc]
    rfl
  simp only [settled, hr, andThen, unwind, hchain, if_true, finish_root hx' hg]
  rfl

theorem settled_host {r : Except Abort Value} {e : Abort} (hr : splitScript r = .error e) (m : Nat) :
    settled resume t c m r w = (.error e, w) := by
  simp only [settled, hr, andThen]

/-! ### One await -/

variable (bodies : Bodies β σ) (runner : Runner β σ)

/-- From the await of a new coroutine to the body of that coroutine. -/
theorem Alone.await_spawn (h : w.Alone t [] (c :: rest) .start none) {x : Handle β}
    (hx : w.handles.get? c.id = some x) (name : String) (b : β) (locals : Bindings Value)
    (frame frame' : Frame) :
    ∃ c' w', w'.Alone t [] (c' :: c :: rest) .start none ∧ w'.store = w.store ∧ c.id ≠ c'.id ∧
      (∀ i, i ≠ c.id → ∀ y, w.handles.get? i = some y →
        i ≠ c'.id ∧ w'.handles.get? i = some y) ∧
      w'.handles.get? c.id = some (x.left frame' (.await (.coroutine c'))) ∧
      (∃ x', w'.handles.get? c'.id = some x' ∧ x'.body = b) ∧
      (proceed (resumeWith bodies (Action.perform runner)) t c frame 0
        ((Action.spawn name b locals fun c =>
          .done (.ok (frame', .await (.coroutine c)))).perform runner w)).1 = .error .outOfFuel ∧
      ∀ m, proceed (resumeWith bodies (Action.perform runner)) t c frame (m + 1)
          ((Action.spawn name b locals fun c =>
            .done (.ok (frame', .await (.coroutine c)))).perform runner w) =
        proceed (resumeWith bodies (Action.perform runner)) t c' ⟨0, locals⟩ m
          ((bodies.resume b ⟨0, locals⟩ .start).perform runner w') := by
  have hspawned : (w.spawn name b locals).2.Alone t [] (c :: rest) .start none :=
    ⟨h.scheduler, h.task⟩
  have hold : ∀ {i y}, w.handles.get? i = some y →
      (w.spawn name b locals).2.handles.get? i = some y := Table.get?_push_of_some
  have hnew : (w.spawn name b locals).2.handles.get? w.handles.size =
      some (.create name b locals) := (Table.get?_push ..).trans (if_pos rfl)
  have hne : w.handles.size ≠ c.id := Ne.symm (Table.ne_size_of_get? hx)
  obtain ⟨w', hw', hstore', hothers, hc, ⟨task, hc'⟩, hdrain⟩ :=
    hspawned.proceed_await (resumeWith bodies (Action.perform runner)) ⟨w.handles.size, name⟩
      (hold hx) hnew rfl rfl hne frame frame'
  obtain ⟨w'', hw'', hspares, hstore'', hbody, hproceed⟩ :=
    hw'.drain_proceed bodies runner hc' rfl
  refine ⟨⟨w.handles.size, name⟩, w'', hw'', hstore''.trans hstore', Ne.symm hne, fun i hi y hy => ?_,
    hspares _ (Ne.symm hne) _ hc, hbody, rfl, fun m => ?_⟩
  · have hi' := Table.ne_size_of_get? hy
    exact ⟨hi', hspares i hi' y (hothers i hi hi' y (hold hy))⟩
  · exact (hdrain (m + 1)).trans (hproceed m)

/-- From the end of an awaited coroutine to the body of the one that awaits it. -/
theorem Alone.settled_resume {c' : CoroutineRef} (h : w.Alone t [] (c :: c' :: rest) .start none)
    (hne : c'.id ≠ c.id) {x : Handle β} (hx : w.handles.get? c'.id = some x)
    (hs : x.status = .suspended) {r : Except Abort Value} {outcome : Outcome}
    (hr : splitScript r = .ok outcome) :
    ∃ w', w'.Alone t [] (c' :: rest) .start none ∧ w'.store = w.store ∧
      (∀ i, i ≠ c.id → i ≠ c'.id → ∀ y, w.handles.get? i = some y →
        w'.handles.get? i = some y) ∧
      (∃ x', w'.handles.get? c'.id = some x' ∧ x'.body = x.body) ∧
      (settled (resumeWith bodies (Action.perform runner)) t c 0 r w).1 = .error .outOfFuel ∧
      ∀ m, settled (resumeWith bodies (Action.perform runner)) t c (m + 1) r w =
        proceed (resumeWith bodies (Action.perform runner)) t c' x.frame m
          ((bodies.resume x.body x.frame outcome.input).perform runner w') := by
  obtain ⟨w', hw', hspares, hstore, hdrain⟩ :=
    h.settled_next (resumeWith bodies (Action.perform runner)) hr
  have hin : x.refusal? outcome.input = none :=
    Handle.refusal?_eq_none_iff.mpr (.inr ⟨hs, by cases outcome <;> rfl⟩)
  obtain ⟨w'', hw'', hspares', hstore', hbody, hproceed⟩ :=
    hw'.drain_proceed bodies runner (hspares _ hne _ hx) hin
  refine ⟨w'', hw'', hstore'.trans hstore, fun i hi hi' y hy => hspares' i hi' y (hspares i hi y hy),
    hbody, by rw [hdrain 0]; rfl, fun m => (hdrain (m + 1)).trans (hproceed m)⟩

/-! ### Whole runs -/

/-- The first scheduler has no run in progress and no limit. -/
def Idle (w : World β σ) : Prop := ∃ next, w.schedulers.get? 0 = some ⟨next, none, none⟩

/-- What a run comes to once its queue is empty, or once it is broken off. -/
def close (t : Nat) (c : CoroutineRef) (x : Except Abort Unit × World β σ) :
    Except Abort Value × World β σ :=
  ((andThen (fun _ w => w.conclude 0 t c) x).1,
    ((andThen (fun _ w => w.conclude 0 t c) x).2.release c).deactivate 0)

variable (resume) in
/-- A run of a fresh coroutine starts with it alone. -/
theorem Idle.runWith_launch (h : w.Idle) {x : Handle β} (hx : w.handles.get? c.id = some x)
    (hs : x.status = .created) (ho : x.owner = none) :
    ∃ t w', w'.Alone t [t] [c] .start none ∧ w'.store = w.store ∧
      (∃ task, w'.handles.get? c.id = some (x.ownedBy task)) ∧
      ∀ m, runWith resume m 0 c w = close t c (drain resume 0 m w') := by
  obtain ⟨next, hnext⟩ := h
  have hactive : w.isActive 0 = false := by simp [isActive, hnext]
  have hclaim : ∀ task, (w.newTask 0 c 0 none).2.claim c task =
      (none, (w.newTask 0 c 0 none).2.modifyHandle c (·.ownedBy task)) := fun task => by
    simp only [claim, handles_newTask, hx, Handle.claimFailure?_eq_none_iff.mpr ⟨hs, ho⟩]
  obtain ⟨id, hrow⟩ := w.get?_tasks_newTask 0 c 0 none
  have hstart : w.start 0 c = (.ok w.tasks.size,
      (((w.newTask 0 c 0 none).2.modifyHandle c
        (·.ownedBy ((w.newTask 0 c 0 none).2.taskId w.tasks.size))).activate 0 w.tasks.size).emit 0
          (.runStart c.name)) := by
    simp only [start, hactive, Bool.false_eq_true, if_false, newTask_fst, hclaim]
  generalize hu : (((w.newTask 0 c 0 none).2.modifyHandle c
    (·.ownedBy ((w.newTask 0 c 0 none).2.taskId w.tasks.size))).activate 0 w.tasks.size).emit 0
      (.runStart c.name) = u at hstart
  have hscheduler : u.schedulers.get? 0 =
      some ⟨next + 1, some ⟨w.tasks.size, [w.tasks.size], 0⟩, none⟩ := by
    rw [← hu]
    simp [activate, newTask, modifyScheduler, Table.get?_modify_self, hnext]
  have htask : u.tasks.get? w.tasks.size = some ⟨id, 0, none, .pending, [c], .start, none⟩ := by
    rw [← hu]
    exact (hrow _).trans (if_pos rfl)
  have hhandle : u.handles.get? c.id =
      some (x.ownedBy ((w.newTask 0 c 0 none).2.taskId w.tasks.size)) := by
    rw [← hu]
    exact get?_modifyHandle_self hx _
  refine ⟨w.tasks.size, u, ⟨⟨_, _, hscheduler⟩, _, htask, rfl, rfl, rfl, rfl⟩, ?_, ⟨_, hhandle⟩,
    fun m => ?_⟩
  · rw [← hu]
    rfl
  · simp only [runWith, hstart, close]
    rcases drain resume 0 m u with ⟨_ | _, _⟩ <;> rfl

/-- A run whose task has an outcome gives this outcome and leaves the scheduler idle. -/
theorem Alone.close_ok {chain : List CoroutineRef} {outcome : Outcome}
    (h : w.Alone t [] chain input (some outcome)) :
    (close t c (.ok (), w)).1 = outcome.mapError .script ∧ (close t c (.ok (), w)).2.Idle ∧
      (close t c (.ok (), w)).2.store = w.store := by
  obtain ⟨x, hx, -, -, -, ho⟩ := h.task
  obtain ⟨next, steps, hs⟩ := h.scheduler
  have hconclude : w.conclude 0 t c = (outcome.mapError .script,
      w.emit 0 (.runEnd outcome.isOk (((w.context? 0).map RunContext.steps).getD 0))) := by
    simp only [conclude, taskOutcome?_of_get? hx, ho]
  simp only [close, andThen, hconclude]
  refine ⟨trivial, ⟨next, ?_⟩, rfl⟩
  simp [deactivate, modifyScheduler, Table.get?_modify_self, World.release, hs]

/-- A run that is broken off leaves the scheduler idle, too. -/
theorem Alone.close_error {chain : List CoroutineRef} {outcome : Option Outcome} (e : Abort)
    (h : w.Alone t [] chain input outcome) :
    (close t c (.error e, w)).1 = .error e ∧ (close t c (.error e, w)).2.Idle ∧
      (close t c (.error e, w)).2.store = w.store := by
  obtain ⟨next, steps, hs⟩ := h.scheduler
  refine ⟨rfl, ⟨next, ?_⟩, rfl⟩
  simp [close, deactivate, modifyScheduler, Table.get?_modify_self, World.release, andThen, hs]

end World

end Coroutines
