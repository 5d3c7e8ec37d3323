import Coroutines.Proofs.Recursion.Unaware

/-!
# Runs without groups

A run in which nobody awaits a group has a single task, and all that its loop does is to keep a stack of
coroutines, each waiting for the one above: such a loop does what a stack machine does that has no tasks
and no queue (`World.machine`, `World.Stands.drain`).  So bodies that await no group are resumed and run
in the same way in worlds that they cannot tell apart (`World.Unaware.resume`).
-/

namespace Coroutines

namespace World

variable {β σ : Type}

/-! ### The stack machine -/

/-- Where a run without groups stands. -/
inductive Stack where
  /-- A coroutine is to take an input; each of the others waits for the one before it. -/
  | busy (top : CoroutineRef) (rest : List CoroutineRef) (input : Input)
  | empty (outcome : Outcome)

/-- The outcome of a coroutine reaches the one that waits for it. -/
def Stack.handOn : List CoroutineRef → Outcome → Stack
  | [], outcome => .empty outcome
  | c :: rest, outcome => .busy c rest outcome.input

/-- Goes on from the step that the coroutine at the top ended with. -/
def goOn (id : Nat) (top : CoroutineRef) (rest : List CoroutineRef) (w : World β σ) :
    Step → Stack × World β σ
  | .await (.coroutine c) =>
    match w.claim c id with
    | (some f, w) => (.busy top rest (.throw (.ofFailure f)), w)
    | (none, w) => (.busy c (top :: rest) .start, w)
  -- not in a run without groups
  | .await (.group _) => (.busy top rest .start, w)
  | .ret v => (.handOn rest (.ok v), w.release top)
  | .raise r => (.handOn rest (.error r), w.release top)

/-- The limit that a count of resumes exceeds. -/
def excess (limit : Option Number) (steps : Nat) : Option Number :=
  limit.filter fun n => Number.exceededBy steps n

/-- Resumes the coroutine at the top until the stack is empty, with a record of the inputs that
coroutines were resumed with. -/
def machine (resume : CoroutineRef → Input → World β σ → Except Abort Step × World β σ) (id : Nat)
    (limit : Option Number) : (fuel steps : Nat) → Stack → World β σ →
      List (CoroutineRef × Input) × Except Abort Outcome × World β σ
  | 0, _, _, w => ([], .error .outOfFuel, w)
  | _ + 1, _, .empty outcome, w => ([], .ok outcome, w)
  | fuel + 1, steps, .busy top rest input, w =>
    match excess limit (steps + 1) with
    | some n => ([], .error (.raise (.budget n)), w)
    | none =>
      match resume top input w with
      | (.error e, w) => ([(top, input)], .error e, w)
      | (.ok step, w) =>
        let on := w.goOn id top rest step
        let later := machine resume id limit fuel (steps + 1) on.1 on.2
        ((top, input) :: later.1, later.2)

/-! ### The inputs of a run -/

/-- The coroutine that a turn resumes, with its input. -/
def turnInput (w : World β σ) (s t : Nat) : List (CoroutineRef × Input) :=
  match (w.takeUp s t).1 with
  | .ok (some x) => [x]
  | _ => []

/-- The coroutines that the loop of a run resumes, with their inputs, turn by turn. -/
def inputs (resume : CoroutineRef → Input → World β σ → Except Abort Step × World β σ) (s : Nat) :
    (fuel : Nat) → World β σ → List (CoroutineRef × Input)
  | 0, _ => []
  | fuel + 1, w =>
    match w.dequeue s with
    | none => []
    | some (t, w) =>
      w.turnInput s t ++ match w.step resume s t with
        | (.ok (), w) => inputs resume s fuel w
        | (.error _, _) => []

/-! ### A run with a single task -/

/-- The only task of a run in progress, with the queue, the count of resumes and the limit of its
scheduler. -/
structure Sole (w : World β σ) (s t id : Nat) (limit : Option Number) (ready : List Nat) (steps : Nat)
    (chain : List CoroutineRef) (inbox : Input) (outcome : Option Outcome) : Prop where
  scheduler : ∃ next, w.schedulers.get? s = some ⟨next, some ⟨t, ready, steps⟩, limit⟩
  task : ∃ x, w.tasks.get? t = some x ∧ x.id = id ∧ x.group = none ∧ x.chain = chain ∧
    x.inbox = inbox ∧ x.outcome = outcome

section

variable {w w' : World β σ} {s t id steps : Nat} {limit : Option Number} {ready : List Nat}
  {chain : List CoroutineRef} {inbox : Input} {outcome : Option Outcome}

namespace Sole

theorem of_undisturbed (h : w.Sole s t id limit ready steps chain inbox outcome)
    (hs : Undisturbed none none w w') : w'.Sole s t id limit ready steps chain inbox outcome := by
  obtain ⟨next, hx⟩ := h.scheduler
  obtain ⟨x, ht, hrow⟩ := h.task
  exact ⟨⟨next, hs.runs nofun hx rfl⟩, x, hs.tasks nofun ht, hrow⟩

theorem modifyTask {chain' : List CoroutineRef} {inbox' : Input} {outcome' : Option Outcome}
    (h : w.Sole s t id limit ready steps chain inbox outcome) (f : Task → Task)
    (hf : ∀ x : Task, x.chain = chain → x.inbox = inbox → x.outcome = outcome →
      (f x).id = x.id ∧ (f x).group = x.group ∧ (f x).chain = chain' ∧ (f x).inbox = inbox' ∧
        (f x).outcome = outcome') :
    (w.modifyTask t f).Sole s t id limit ready steps chain' inbox' outcome' := by
  obtain ⟨x, hx, hid, hg, hc, hi, ho⟩ := h.task
  obtain ⟨hid', hg', hrow⟩ := hf x hc hi ho
  refine ⟨h.scheduler, f x, ?_, hid'.trans hid, hg'.trans hg, hrow⟩
  rw [get?_tasks_modifyTask, if_pos rfl, hx, Option.map_some]

theorem modifyContext {ready' : List Nat} {steps' : Nat}
    (h : w.Sole s t id limit ready steps chain inbox outcome) {f : RunContext → RunContext}
    (hf : f ⟨t, ready, steps⟩ = ⟨t, ready', steps'⟩) :
    (w.modifyContext s f).Sole s t id limit ready' steps' chain inbox outcome := by
  obtain ⟨next, hs⟩ := h.scheduler
  refine ⟨⟨next, ?_⟩, h.task⟩
  simp [World.modifyContext, modifyScheduler, Table.get?_modify_self, hs, hf]

theorem emit (h : w.Sole s t id limit ready steps chain inbox outcome) (s' : Nat) (e : Event) :
    (w.emit s' e).Sole s t id limit ready steps chain inbox outcome := ⟨h.scheduler, h.task⟩

theorem enqueue (h : w.Sole s t id limit [] steps chain inbox outcome) :
    (w.enqueue s t).Sole s t id limit [t] steps chain inbox outcome := h.modifyContext rfl

theorem exceeded? (h : w.Sole s t id limit ready steps chain inbox outcome) :
    w.exceeded? s = excess limit steps := by
  obtain ⟨next, hs⟩ := h.scheduler
  cases limit <;> simp [World.exceeded?, hs, excess, Option.filter]

end Sole

/-- A run with a single task stands where a stack machine stands. -/
def Stands (w : World β σ) (s t id : Nat) (limit : Option Number) (steps : Nat) : Stack → Prop
  | .busy top rest input => w.Sole s t id limit [t] steps (top :: rest) input none
  | .empty outcome => ∃ inbox, w.Sole s t id limit [] steps [] inbox (some outcome)

variable {v : World β σ} {top : CoroutineRef} {rest : List CoroutineRef} {input : Input}

/-- The task hands the outcome of its topmost coroutine on. -/
theorem Sole.unwind (h : w.Sole s t id limit [] steps (top :: rest) .start none)
    (hv : w.Indistinct v) (o : Outcome) : ∃ w', w.unwind s t top o = (.ok (), w') ∧
      w'.Indistinct (v.release top) ∧ w'.Stands s t id limit steps (.handOn rest o) ∧
      Undisturbed (some s) (some t) w w' := by
  let w₁ := (w.modifyTask t fun x => { x with chain := x.chain.tail }).release top
  have hsole : w₁.Sole s t id limit [] steps rest .start none :=
    (h.modifyTask (fun x => { x with chain := x.chain.tail })
      fun x hc hi ho => ⟨rfl, rfl, congrArg List.tail hc, hi, ho⟩).of_undisturbed (.of_eq rfl rfl)
  have hlook : w₁.Indistinct (v.release top) := ((Indistinct.modifyTask ..).trans hv).release top
  have hsame : Undisturbed (some s) (some t) w w₁ :=
    (Undisturbed.modifyTask w t _).trans (.of_eq rfl rfl)
  obtain ⟨x, hx, -, hgroup, hchain, -⟩ := hsole.task
  cases rest with
  | nil =>
      have hfinish : w.unwind s t top o = w₁.finish s t o := by
        simp [World.unwind, w₁, hx, hchain]
      exact ⟨_, hfinish.trans (finish_root hx hgroup),
        (Indistinct.emit ..).trans ((Indistinct.modifyTask ..).trans hlook),
        ⟨.start, (hsole.modifyTask (·.ended o) fun _ hc hi _ => ⟨rfl, rfl, hc, hi, rfl⟩).emit ..⟩,
        hsame.trans ((Undisturbed.modifyTask w₁ t (·.ended o)).trans (.emit ..))⟩
  | cons c rest =>
      refine ⟨w₁.deliver s t o.input, ?_,
        (Indistinct.modifyContext ..).trans ((Indistinct.modifyTask ..).trans hlook),
        (hsole.modifyTask (fun x => { x with inbox := o.input, state := .suspended })
          fun _ hc _ ho => ⟨rfl, rfl, hc, rfl, ho⟩).enqueue,
        hsame.trans ((Undisturbed.modifyTask w₁ t _).trans (.modifyScheduler ..))⟩
      simp [World.unwind, w₁, hx, hchain]

/-- The task goes on from a step as the stack machine does. -/
theorem Sole.absorb (h : w.Sole s t id limit [] steps (top :: rest) .start none)
    (hv : w.Indistinct v) (step : Step) (hg : ∀ g, step ≠ .await (.group g)) :
    ∃ w', w.absorb s t top step = (.ok (), w') ∧ w'.Indistinct (v.goOn id top rest step).2 ∧
      w'.Stands s t id limit steps (v.goOn id top rest step).1 ∧
      Undisturbed (some s) (some t) w w' := by
  cases step with
  | ret x => exact h.unwind hv (.ok x)
  | raise r => exact h.unwind hv (.error r)
  | await target =>
      cases target with
      | group g => exact absurd rfl (hg g)
      | coroutine c =>
          let w₁ := w.modifyTask t fun x => { x with state := .suspended }
          have hsole : w₁.Sole s t id limit [] steps (top :: rest) .start none :=
            h.modifyTask _ fun _ hc hi ho => ⟨rfl, rfl, hc, hi, ho⟩
          have hid : w₁.taskId t = id := by
            obtain ⟨x, hx, rfl, -⟩ := hsole.task
            exact taskId_of_get? hx
          obtain ⟨hfailure, hlook⟩ := ((Indistinct.modifyTask ..).trans hv : w₁.Indistinct v).claim c id
          have hclaimed := hsole.of_undisturbed (.claim w₁ c id)
          have hsame : Undisturbed (some s) (some t) w (w₁.claim c id).2 :=
            (Undisturbed.modifyTask w t _).trans (.claim w₁ c id)
          -- the claim comes out alike in both worlds
          rcases hw₂ : w₁.claim c id with ⟨failure, w₂⟩
          rcases hv₂ : v.claim c id with ⟨failure', v₂⟩
          rw [hw₂, hv₂] at hfailure hlook
          rw [hw₂] at hclaimed hsame
          obtain rfl : failure = failure' := hfailure
          let f : Task → Task := fun x =>
            match failure with
            | some f => { x with inbox := .throw (.ofFailure f) }
            | none => { x with chain := c :: x.chain }
          have hend : w.absorb s t top (.await (.coroutine c)) = (.ok (), ((w₂.modifyTask t f).emit s
              (.taskSuspend ((w₂.modifyTask t f).taskId t) c.name)).enqueue s t) := by
            simp only [World.absorb, suspend, w₁] at hw₂ hid ⊢
            rw [hid, hw₂]
            cases failure <;> rfl
          refine ⟨_, hend, ?_, ?_, ?_⟩
          · have hgo : (v.goOn id top rest (.await (.coroutine c))).2 = v₂ := by
              simp only [goOn, hv₂]
              cases failure <;> rfl
            rw [hgo]
            exact (Indistinct.modifyContext ..).trans
              ((Indistinct.emit ..).trans ((Indistinct.modifyTask ..).trans hlook))
          · simp only [goOn, hv₂]
            cases failure with
            | some failure =>
                exact ((hclaimed.modifyTask f fun _ hc _ ho => ⟨rfl, rfl, hc, rfl, ho⟩).emit ..).enqueue
            | none =>
                exact ((hclaimed.modifyTask f fun _ hc hi ho =>
                  ⟨rfl, rfl, congrArg (c :: ·) hc, hi, ho⟩).emit ..).enqueue
          · exact hsame.trans ((Undisturbed.modifyTask w₂ t f).trans
              ((Undisturbed.emit ..).trans (.modifyScheduler ..)))

/-! ### Turns -/

variable {resume : CoroutineRef → Input → World β σ → Except Abort Step × World β σ}

/-- A turn takes the task from the queue, counts a resume and marks the task, if its limit allows. -/
theorem Sole.takeUp (h : w.Sole s t id limit [t] steps (top :: rest) input none) :
    ∃ w₁ w₂, w.dequeue s = some (t, w₁) ∧ w₂.Indistinct w ∧ Undisturbed (some s) (some t) w w₂ ∧
      match excess limit (steps + 1) with
      | some n => w₁.takeUp s t = (.error (.raise (.budget n)), w₂)
      | none => w₁.takeUp s t = (.ok (some (top, input)), w₂) ∧
          w₂.Sole s t id limit [] (steps + 1) (top :: rest) .start none := by
  obtain ⟨next, hs⟩ := h.scheduler
  let w₁ := w.modifyContext s fun ctx => { ctx with ready := [] }
  have hd : w.dequeue s = some (t, w₁) := by simp [World.dequeue, context?, hs, w₁]
  have hqueue : w₁.Sole s t id limit [] steps (top :: rest) input none := h.modifyContext rfl
  have hcounted : (w₁.counted s).Sole s t id limit [] (steps + 1) (top :: rest) input none :=
    hqueue.modifyContext rfl
  have hlook : (w₁.counted s).Indistinct w := (Indistinct.modifyContext ..).trans (.modifyContext ..)
  have hsame : Undisturbed (some s) (some t) w (w₁.counted s) :=
    (Undisturbed.modifyScheduler ..).trans (.modifyScheduler ..)
  obtain ⟨x, hx, -, -, hc, hi, -⟩ := hqueue.task
  have htake := takeUp_eq w₁ s t
  simp only [hx, hc, hi, hcounted.exceeded?, Option.bind_some, List.head?_cons, Option.map_some]
    at htake
  cases hexcess : excess limit (steps + 1) with
  | some n =>
      rw [hexcess] at htake
      exact ⟨w₁, _, hd, (Indistinct.emit ..).trans hlook, hsame.trans (.emit ..), htake⟩
  | none =>
      rw [hexcess] at htake
      exact ⟨w₁, _, hd, (Indistinct.modifyTask ..).trans hlook, hsame.trans (.modifyTask ..), htake,
        hcounted.modifyTask _ fun _ hc _ ho => ⟨rfl, rfl, hc, rfl, ho⟩⟩

/-- **The loop of a run without groups is a stack machine.** -/
theorem Stands.drain (hres : ∀ c input, Unaware (resume c input))
    (hg : ∀ c input (w : World β σ) g, (resume c input w).1 ≠ .ok (.await (.group g)))
    {stack : Stack} (h : w.Stands s t id limit steps stack) (hv : w.Indistinct v) (fuel : Nat) :
    inputs resume s fuel w = (machine resume id limit fuel steps stack v).1 ∧
      ∃ w', World.drain resume s fuel w =
          ((machine resume id limit fuel steps stack v).2.1.map fun _ => (), w') ∧
        w'.Indistinct (machine resume id limit fuel steps stack v).2.2 ∧
        Undisturbed (some s) (some t) w w' ∧
        ∀ o, (machine resume id limit fuel steps stack v).2.1 = .ok o → w'.taskOutcome? t = some o := by
  induction fuel generalizing w v steps stack with
  | zero => exact ⟨rfl, w, rfl, hv, .refl w, fun _ e => by cases e⟩
  | succ fuel ih =>
      cases stack with
      | empty outcome =>
          obtain ⟨inbox, h⟩ := h
          obtain ⟨next, hs⟩ := h.scheduler
          obtain ⟨x, hx, -, -, -, -, ho⟩ := h.task
          have hd : w.dequeue s = none := by simp [World.dequeue, context?, hs]
          refine ⟨by simp only [inputs, hd, machine], w, by simp only [World.drain, hd, machine]; rfl, hv,
            .refl w, fun o e => ?_⟩
          simp only [machine] at e
          cases e
          rw [taskOutcome?_of_get? hx, ho]
      | busy top rest input =>
          -- the task is the only one in the queue, so the turn is its own
          obtain ⟨w₁, w₂, hd, hlook, hsame, htake⟩ := Sole.takeUp h
          cases hexcess : excess limit (steps + 1) with
          | some n =>
              rw [hexcess] at htake
              simp only [inputs, World.drain, machine, hd, hexcess, turnInput, step_eq, htake, andThen]
              exact ⟨rfl, w₂, rfl, hlook.trans hv, hsame, fun _ e => by cases e⟩
          | none =>
              rw [hexcess] at htake
              obtain ⟨htake, hsole⟩ := htake
              obtain ⟨hresult, hlook₃⟩ := (hres top input).same (hlook.trans hv)
              have hsame₃ := (hres top input).undisturbed w₂
              have hgroup := hg top input w₂
              simp only [inputs, World.drain, machine, hd, hexcess, turnInput, step_eq, htake, andThen,
                Option.elim_some]
              generalize resume top input w₂ = x at hresult hlook₃ hsame₃ hgroup ⊢
              generalize resume top input v = y at hresult hlook₃ ⊢
              obtain ⟨r, w₃⟩ := x
              obtain ⟨r', v₃⟩ := y
              obtain rfl : r = r' := hresult
              cases r with
              | error e =>
                  exact ⟨rfl, w₃, rfl, hlook₃, hsame.trans hsame₃.weaken, fun _ e => by cases e⟩
              | ok step =>
                  obtain ⟨w₄, habsorb, hlook₄, hstands, hsame₄⟩ := (hsole.of_undisturbed hsame₃).absorb
                    hlook₃ step fun g e => hgroup g (by rw [e])
                  obtain ⟨hinputs, w', hdrain, hlook', hsame', houtcome⟩ := ih hstands hlook₄
                  simp only [habsorb]
                  exact ⟨congrArg _ hinputs, w', hdrain, hlook',
                    hsame.trans (hsame₃.weaken.trans (hsame₄.trans hsame')), houtcome⟩

/-! ### Whole runs -/

/-- The number of the next task of a scheduler. -/
def nextNumber (w : World β σ) (s : Nat) : Nat :=
  ((w.schedulers.get? s).map Scheduler.nextTask).getD 0

/-- The limit of a scheduler, if it has one. -/
def limitOf (w : World β σ) (s : Nat) : Option Number := (w.schedulers.get? s).bind Scheduler.maxSteps

theorem Indistinct.nextNumber (h : w.Indistinct v) (s : Nat) : w.nextNumber s = v.nextNumber s := by
  have hs := congrArg (·.map Prod.fst) (h.faces s)
  simp only [Option.map_map] at hs
  exact congrArg (·.getD 0) hs

theorem Indistinct.limitOf (h : w.Indistinct v) (s : Nat) : w.limitOf s = v.limitOf s := by
  have hs := congrArg (·.bind fun x => x.2.2) (h.faces s)
  rw [Option.bind_map, Option.bind_map] at hs
  exact hs

theorem Indistinct.newTask (h : w.Indistinct v) (s : Nat) (c : CoroutineRef) (index : Nat)
    (group : Option GroupRef) :
    (w.newTask s c index group).2.Indistinct (v.newTask s c index group).2 := by
  have hs := h.modifyScheduler s (f := fun x => { x with nextTask := x.nextTask + 1 })
    (g := fun x => { x with nextTask := x.nextTask + 1 }) fun x y e => by
      simp only [Scheduler.face, Prod.mk.injEq] at e ⊢
      exact ⟨by rw [e.1], e.2⟩
  exact ⟨hs.handles, hs.groups, hs.nextIdentity, hs.shared, hs.faces⟩

/-- A new task has a row of its own. -/
theorem Undisturbed.newTask (w : World β σ) (s : Nat) (c : CoroutineRef) (index : Nat)
    (group : Option GroupRef) :
    Undisturbed (some s) (some w.tasks.size) w (w.newTask s c index group).2 := by
  have hs : Undisturbed (some s) (some w.tasks.size) w _ :=
    .modifyScheduler w s fun x => { x with nextTask := x.nextTask + 1 }
  exact ⟨hs.runs, hs.isActive, hs.schedulers, fun ht hx => Table.get?_push_of_some hx⟩

/-- A scheduler that is idle again, and a task that is new, are no exceptions. -/
theorem Undisturbed.close (h : Undisturbed (some s) (some t) w w') (hidle : w.isActive s = false)
    (hidle' : w'.isActive s = false) (hnew : w.tasks.get? t = none) :
    Undisturbed none none w w' where
  runs {s' x} _ hx hc := by
    refine h.runs (fun e => ?_) hx hc
    cases e
    simp only [World.isActive, hx, hc, reduceCtorEq] at hidle
  isActive {s'} _ := by
    by_cases e : s = s'
    · exact e ▸ hidle'.trans hidle.symm
    · exact h.isActive fun e' => e (Option.some.inj e')
  schedulers := h.schedulers
  tasks {t' x} _ hx := by
    refine h.tasks (fun e => ?_) hx
    cases e
    cases hnew.symm.trans hx

/-- An idle scheduler starts a run if its coroutine can be claimed for a new task. -/
theorem start_eq {c : CoroutineRef} (hidle : w.isActive s = false) : w.start s c =
    match (w.newTask s c 0 none).2.claim c (w.nextNumber s) with
    | (some f, w') => (.error (.raise f), w')
    | (none, w') =>
      (.ok w.tasks.size, (w'.activate s w.tasks.size).emit s (.runStart c.name)) := by
  have hid : (w.newTask s c 0 none).2.taskId w.tasks.size = w.nextNumber s := by
    rw [taskId_of_get? ((Table.get?_push ..).trans (if_pos rfl))]
    rfl
  simp only [start, hidle, newTask_fst, hid]
  rfl

theorem get?_schedulers_newTask {x : Scheduler} (hx : w.schedulers.get? s = some x)
    (c : CoroutineRef) (index : Nat) (group : Option GroupRef) :
    (w.newTask s c index group).2.schedulers.get? s = some { x with nextTask := x.nextTask + 1 } :=
  (Table.get?_modify_self ..).trans (by rw [hx]; rfl)

/-- A run that cannot start leaves the runs in progress alone. -/
theorem undisturbed_start {c : CoroutineRef} {e : Abort} (h : w.start s c = (.error e, w')) :
    Undisturbed none none w w' := by
  cases hidle : w.isActive s with
  | true =>
      simp only [start, hidle] at h
      cases h
      exact .refl w
  | false =>
      rw [start_eq hidle] at h
      have hnew := Undisturbed.newTask w s c 0 none
      have hclaim := (Undisturbed.claim (s := none) (t := none) (w.newTask s c 0 none).2 c (w.nextNumber s))
      generalize (w.newTask s c 0 none).2.claim c (w.nextNumber s) = x at h hclaim
      obtain ⟨_ | f, w₁⟩ := x
      · cases h
      · cases h
        refine (hnew.trans hclaim.weaken).close hidle ?_ (Table.get?_size _)
        rw [hclaim.isActive (Option.some_ne_none s).symm]
        obtain ⟨⟨x, hx⟩, hc⟩ := idle_of_isActive hidle
        simp only [World.isActive, get?_schedulers_newTask hx]
        simpa [context?, hx] using hc

/-- A run that starts has a single task and an empty stack below its coroutine. -/
theorem stands_start {c : CoroutineRef} {root : Nat} (h : w.start s c = (.ok root, w')) :
    w.isActive s = false ∧ w.tasks.get? root = none ∧
      w'.Stands s root (w.nextNumber s) (w.limitOf s) 0 (.busy c [] .start) ∧
      Undisturbed (some s) (some root) w w' := by
  cases hidle : w.isActive s with
  | true =>
      simp only [start, hidle] at h
      cases h
  | false =>
      rw [start_eq hidle] at h
      have hnew := Undisturbed.newTask w s c 0 none
      obtain ⟨⟨x, hx⟩, -⟩ := idle_of_isActive hidle
      have hclaimed := hnew.trans (Undisturbed.claim _ c (w.nextNumber s))
      rcases hclaim : (w.newTask s c 0 none).2.claim c (w.nextNumber s) with ⟨_ | f, w₁⟩ <;>
        rw [hclaim] at h hclaimed <;> cases h
      obtain ⟨_, -, -, -, rfl⟩ := claim_eq_none hclaim
      have hrow : (((w.newTask s c 0 none).2.modifyHandle c (·.ownedBy (w.nextNumber s))).activate s
          w.tasks.size).schedulers.get? s =
          some ⟨x.nextTask + 1, some ⟨w.tasks.size, [w.tasks.size], 0⟩, w.limitOf s⟩ := by
        have hlimit : w.limitOf s = x.maxSteps := by rw [limitOf, hx, Option.bind_some]
        rw [hlimit]
        exact (Table.get?_modify_self ..).trans
          (congrArg (Option.map _) (get?_schedulers_newTask hx c 0 none))
      exact ⟨rfl, Table.get?_size _, ⟨⟨_, hrow⟩, _, (Table.get?_push ..).trans (if_pos rfl), rfl, rfl, rfl,
        rfl, rfl⟩, hclaimed.trans ((Undisturbed.modifyScheduler ..).trans (.emit ..))⟩

/-- Worlds that look the same start a run alike. -/
theorem Indistinct.start (h : w.Indistinct v) (s : Nat) (c : CoroutineRef) :
    (w.start s c).1.map (fun _ => ()) = (v.start s c).1.map (fun _ => ()) ∧
      (w.start s c).2.Indistinct (v.start s c).2 := by
  have hactive := h.isActive s
  cases hidle : v.isActive s with
  | true =>
      rw [hidle] at hactive
      simp only [World.start, hidle, hactive]
      exact ⟨rfl, h⟩
  | false =>
      rw [hidle] at hactive
      obtain ⟨hfailure, hlook⟩ := (h.newTask s c 0 none).claim c (v.nextNumber s)
      rw [start_eq hidle, start_eq hactive, h.nextNumber s]
      generalize (w.newTask s c 0 none).2.claim c (v.nextNumber s) = x at hfailure hlook ⊢
      generalize (v.newTask s c 0 none).2.claim c (v.nextNumber s) = y at hfailure hlook ⊢
      obtain ⟨failure, w₁⟩ := x
      obtain ⟨failure', v₁⟩ := y
      obtain rfl : failure = failure' := hfailure
      cases failure with
      | some f => exact ⟨rfl, hlook⟩
      | none =>
          refine ⟨rfl, (Indistinct.emit ..).trans (Indistinct.trans ?_ (Indistinct.emit ..).symm)⟩
          refine hlook.modifyScheduler s fun x y e => ?_
          simp only [Scheduler.face, Prod.mk.injEq] at e ⊢
          exact ⟨e.1, rfl, e.2.2⟩

/-- What a run gives, by the outcome of its task. -/
def given (result : Except Abort Outcome) : Except Abort Value := result.bind (·.mapError .script)

/-- **A run without groups gives what the stack machine comes to.** -/
theorem runWith_machine (hres : ∀ c input, Unaware (resume c input))
    (hg : ∀ c input (w : World β σ) g, (resume c input w).1 ≠ .ok (.await (.group g)))
    {c : CoroutineRef} {root : Nat} (h : w.start s c = (.ok root, w')) (hv : w'.Indistinct v)
    (fuel : Nat) : ∃ u,
      w.runWith resume fuel s c = (given (machine resume (w.nextNumber s) (w.limitOf s) fuel 0
        (.busy c [] .start) v).2.1, u) ∧
      u.Indistinct (((machine resume (w.nextNumber s) (w.limitOf s) fuel 0 (.busy c [] .start)
        v).2.2.release c).deactivate s) ∧ Undisturbed none none w u := by
  obtain ⟨hidle, hnew, hstands, hsame⟩ := stands_start h
  obtain ⟨-, w₁, hdrain, hlook, hsame₁, houtcome⟩ := hstands.drain hres hg hv fuel
  obtain ⟨x, hx⟩ := (idle_of_isActive hidle).1
  -- whatever the run gives, its root is released and its scheduler idle
  have hend : ∀ {u : World β σ}, Undisturbed (some s) (some root) w u →
      Undisturbed none none w ((u.release c).deactivate s) := by
    intro u hu
    have hclosed := hu.trans ((Undisturbed.of_eq rfl rfl : Undisturbed _ _ u (u.release c)).trans
      (.modifyScheduler _ s fun x => { x with context := none }))
    refine hclosed.close hidle ?_ hnew
    obtain ⟨y, hy⟩ : ∃ y, (u.release c).schedulers.get? s = some y :=
      Table.exists_get? (hu.schedulers ▸ Table.lt_size_of_get? hx)
    simp only [World.isActive, modifyScheduler, Table.get?_modify_self, hy, Option.map_some,
      Option.isSome_none]
  have hlook' : ∀ {u : World β σ}, u.Indistinct w₁ → ((u.release c).deactivate s).Indistinct
      (((machine resume (w.nextNumber s) (w.limitOf s) fuel 0 (.busy c [] .start) v).2.2.release
        c).deactivate s) := by
    intro u hu
    refine ((hu.trans hlook).release c).modifyScheduler s fun x y e => ?_
    simp only [Scheduler.face, Prod.mk.injEq] at e ⊢
    exact ⟨e.1, trivial, e.2.2⟩
  rw [runWith_eq, h]
  simp only [andThen, hdrain]
  cases hr : (machine resume (w.nextNumber s) (w.limitOf s) fuel 0 (.busy c [] .start) v).2.1 with
  | error e => exact ⟨_, rfl, hlook' (.refl _), hend (hsame.trans hsame₁)⟩
  | ok o =>
      have ho := houtcome o hr
      simp only [Except.map, conclude, ho]
      exact ⟨_, rfl, hlook' (.emit ..), hend (hsame.trans (hsame₁.trans (.emit ..)))⟩

/-- Runs do not see runs if resumes do not. -/
theorem Unaware.runWith (hres : ∀ c input, Unaware (resume c input))
    (hg : ∀ c input (w : World β σ) g, (resume c input w).1 ≠ .ok (.await (.group g)))
    (fuel s : Nat) (c : CoroutineRef) : Unaware (World.runWith resume fuel s c) := by
  refine ⟨fun {w v} h => ?_, fun w => ?_⟩
  · obtain ⟨hroot, hlook⟩ := h.start s c
    rcases hw : w.start s c with ⟨e | root, w₁⟩ <;> rcases hv : v.start s c with ⟨e' | root', v₁⟩ <;>
      rw [hw, hv] at hroot hlook <;> cases hroot
    · simp only [World.runWith, hw, hv]
      exact ⟨trivial, hlook⟩
    · obtain ⟨u, hu, hlook₁, -⟩ := runWith_machine hres hg hw hlook fuel
      obtain ⟨u', hu', hlook₂, -⟩ := runWith_machine hres hg hv (.refl v₁) fuel
      rw [h.nextNumber s, h.limitOf s] at hu hlook₁
      rw [hu, hu']
      exact ⟨rfl, hlook₁.trans hlook₂.symm⟩
  · rcases hw : w.start s c with ⟨e | root, w₁⟩
    · simp only [World.runWith, hw]
      exact undisturbed_start hw
    · obtain ⟨u, hu, -, hsame⟩ := runWith_machine hres hg hw (.refl w₁) fuel
      rw [hu]
      exact hsame

end

/-! ### Bodies that await no group -/

end World

/-- No resume ends with the await of a group. -/
def Bodies.GroupFree {β σ : Type} (bodies : Bodies β σ) : Prop :=
  ∀ fuel c input (w : World β σ) g, (w.resume bodies fuel c input).1 ≠ .ok (.await (.group g))

namespace World

variable {β σ : Type} {bodies : Bodies β σ}

/-- **Resumes of bodies that await no group do not see runs**, by induction on how deep runs nest. -/
theorem Unaware.resume (hg : bodies.GroupFree) (fuel : Nat) (c : CoroutineRef) (input : Input) :
    Unaware (World.resume bodies fuel c input) := by
  induction fuel generalizing c input with
  | zero => exact .const _
  | succ fuel ih => exact .resume_succ (fun s c => .runWith ih (hg fuel) fuel s c) ih c input

end World

end Coroutines
