import Coroutines.Proofs.Executions

/-!
# What happens to coroutines

Between two moments of any execution, coroutines are made, claimed, released and resumed, and nothing
else happens to them.  The schedulers only make, claim and release them (`World.Arranged`); what is left
are the resumes, and a chronicle lists those that a coroutine took, each with what it came to
(`World.Chronicle`).  Every action, every turn and every run has a chronicle, whatever the bodies do and
however it ends, so what a chronicle keeps every execution keeps.
-/

namespace Coroutines

/-- A resume that a coroutine took: the body and the frame with which it went on, and the worlds in which
the body was carried out and left off. -/
structure Resumption (β σ : Type) where
  coroutine : CoroutineRef
  body : β
  frame : Frame
  input : Input
  /-- The bound on runs inside the body. -/
  fuel : Nat
  entered : World β σ
  result : Except Abort (Frame × Step)
  left : World β σ

namespace World

variable {β σ : Type} {w w' w'' : World β σ}

/-! ### Coroutines in the hands of the schedulers -/

/-- Coroutines were made, claimed and released on the way to a world, but not resumed. -/
inductive Arranged : World β σ → World β σ → Prop
  | rest {w w' : World β σ} (h : w'.handles = w.handles) : Arranged w w'
  | spawn (w : World β σ) (name : String) (body : β) (locals : Bindings Value) :
    Arranged w (w.spawn name body locals).2
  | claim (w : World β σ) (c : CoroutineRef) (task : Nat) : Arranged w (w.claim c task).2
  | release (w : World β σ) (c : CoroutineRef) : Arranged w (w.release c)
  | trans {w w' w'' : World β σ} (h : Arranged w w') (h' : Arranged w' w'') : Arranged w w''

namespace Arranged

theorem refl (w : World β σ) : Arranged w w := .rest rfl

/-- The rest of the world does not matter. -/
theorem congr {v v' : World β σ} (h : w.Arranged w') (e : v.handles = w.handles)
    (e' : v'.handles = w'.handles) : v.Arranged v' :=
  (rest e.symm).trans (h.trans (rest e'))

end Arranged

@[simp] theorem handles_closeGroup (w : World β σ) (s : Nat) (g : GroupRef) :
    (w.closeGroup s g).2.handles = w.handles := by
  unfold closeGroup
  split
  · unfold settleGroup
    split
    · rfl
    · have hsettle : (w.settle g).2.handles = w.handles := by
        unfold settle
        split <;> rfl
      split <;>
        · next e =>
            rw [e] at hsettle
            exact hsettle
  · rfl

@[simp] theorem handles_finish (w : World β σ) (s t : Nat) (outcome : Outcome) :
    (w.finish s t outcome).2.handles = w.handles := by
  simp only [finish]
  split
  · rfl
  · split
    · rfl
    · exact handles_closeGroup ..

/-- A coroutine that has ended is released. -/
theorem handles_unwind (w : World β σ) (s t : Nat) (top : CoroutineRef) (outcome : Outcome) :
    (w.unwind s t top outcome).2.handles = (w.release top).handles := by
  simp only [unwind]
  split
  · exact handles_finish ..
  · rfl

@[simp] theorem handles_takeUp (w : World β σ) (s t : Nat) :
    (w.takeUp s t).2.handles = w.handles := by
  simp only [takeUp]
  split
  · rfl
  · split
    · rfl
    · split <;> rfl

@[simp] theorem handles_conclude (w : World β σ) (s root : Nat) (c : CoroutineRef) :
    (w.conclude s root c).2.handles = w.handles := by
  simp only [conclude]
  split <;> rfl

theorem handles_dequeue {s t : Nat} (h : w.dequeue s = some (t, w')) : w'.handles = w.handles := by
  obtain ⟨_, _, -, -, hw⟩ := dequeue_eq_some h
  rw [hw]
  rfl

namespace Arranged

theorem startMember (w : World β σ) (s : Nat) (g : GroupRef) (index : Nat) (c : CoroutineRef) :
    w.Arranged (w.startMember s g index c) := by
  obtain ⟨id, w', he, -, -, hhandles, -⟩ := w.addMember_spec s g index c
  have hclaim := Arranged.claim w' c (w'.taskId w.tasks.size)
  simp only [World.startMember, he]
  split <;>
    · next e =>
        rw [e] at hclaim
        exact hclaim.congr hhandles.symm rfl

theorem startMembers (w : World β σ) (s : Nat) (g : GroupRef) (index : Nat)
    (cs : List CoroutineRef) : w.Arranged (w.startMembers s g index cs) := by
  induction cs generalizing w index with
  | nil => exact .refl w
  | cons c rest ih => exact (startMember w s g index c).trans (ih ..)

theorem startGroup (w : World β σ) (s parent : Nat) (g : GroupRef) :
    w.Arranged (w.startGroup s parent g).2 := by
  simp only [World.startGroup]
  refine (startMembers _ s g 0 _).congr ?_ (handles_closeGroup ..)
  rfl

theorem suspend (w : World β σ) (s t : Nat) (target : Target) :
    w.Arranged (w.suspend s t target).2 := by
  cases target with
  | group g =>
      have hgroup := startGroup (w.modifyTask t fun x => { x with state := .suspended }) s t g
      simp only [World.suspend]
      split
      · exact .rest rfl
      · exact (Arranged.rest (handles_modifyTask ..)).trans hgroup
  | coroutine c =>
      have hclaim := Arranged.claim (w.modifyTask t fun x => { x with state := .suspended }) c
        ((w.modifyTask t fun x => { x with state := .suspended }).taskId t)
      exact hclaim.congr rfl rfl

theorem unwind (w : World β σ) (s t : Nat) (top : CoroutineRef) (outcome : Outcome) :
    w.Arranged (w.unwind s t top outcome).2 :=
  (Arranged.release w top).congr rfl (handles_unwind ..)

/-- A task that goes on from a step makes, claims and releases coroutines. -/
theorem absorb (w : World β σ) (s t : Nat) (top : CoroutineRef) (step : Step) :
    w.Arranged (w.absorb s t top step).2 := by
  cases step with
  | await target => exact suspend w s t target
  | ret v => exact unwind w s t top (.ok v)
  | raise r => exact unwind w s t top (.error r)

theorem start (w : World β σ) (s : Nat) (c : CoroutineRef) : w.Arranged (w.start s c).2 := by
  have hclaim := Arranged.claim (w.newTask s c 0 none).2 c
    ((w.newTask s c 0 none).2.taskId (w.newTask s c 0 none).1)
  simp only [World.start]
  split
  · exact .refl w
  · split <;>
      · next e =>
          rw [e] at hclaim
          exact hclaim.congr rfl rfl

/-- Coroutines stay. -/
theorem size_handles_le (h : w.Arranged w') : w.handles.size ≤ w'.handles.size := by
  induction h with
  | rest h => exact Nat.le_of_eq (congrArg Table.size h).symm
  | spawn w name body locals => exact Nat.le_trans (Nat.le_succ _) (Nat.le_of_eq (Table.size_push ..).symm)
  | claim w c task =>
      unfold World.claim
      split
      · exact Nat.le_refl _
      · split
        · exact Nat.le_refl _
        · exact Nat.le_of_eq (Table.size_modify ..).symm
  | release => exact Nat.le_of_eq (Table.size_modify ..).symm
  | trans _ _ ih ih' => exact Nat.le_trans ih ih'

end Arranged

/-! ### Resumes -/

/-- The resumes that coroutines took on the way to a world, in the order in which they were over.  A
resume comes after those inside it. -/
inductive Chronicle (bodies : Bodies β σ) : World β σ → List (Resumption β σ) → World β σ → Prop
  | arrange {w w' : World β σ} (h : w.Arranged w') : Chronicle bodies w [] w'
  | resume {w : World β σ} {x : Handle β} {r : Resumption β σ} {log : List (Resumption β σ)}
      (hx : w.handles.get? r.coroutine.id = some x) (hin : x.refusal? r.input = none)
      (hbody : r.body = x.body) (hframe : r.frame = x.frame) {forgets : Bool}
      (hentered : r.entered = w.modifyHandle r.coroutine (·.entered forgets))
      (hp : (bodies.resume r.body r.frame r.input).perform (runner bodies r.fuel) r.entered =
        (r.result, r.left)) (h : Chronicle bodies r.entered log r.left) :
      Chronicle bodies w (log ++ [r]) (r.left.leave r.coroutine r.frame r.result).2
  | trans {w w' w'' : World β σ} {log log' : List (Resumption β σ)} (h : Chronicle bodies w log w')
      (h' : Chronicle bodies w' log' w'') : Chronicle bodies w (log ++ log') w''

/-- A world lies on the way to another, with some chronicle. -/
def Passes (bodies : Bodies β σ) (w w' : World β σ) : Prop := ∃ log, Chronicle bodies w log w'

theorem resume_succ (bodies : Bodies β σ) (fuel : Nat) (c : CoroutineRef) (input : Input)
    (w : World β σ) : World.resume bodies (fuel + 1) c input w =
      w.resumeWith bodies (Action.perform (runner bodies fuel)) c input := rfl

/-- A coroutine that runs or has finished is not resumed. -/
theorem enter_eq_ok {bodies : Bodies β σ} {c : CoroutineRef} {input : Input} {frame : Frame}
    {body : Action β σ (Frame × Step)} (h : w.enter bodies c input = (.ok (frame, body), w')) :
    ∃ x, w.handles.get? c.id = some x ∧ x.refusal? input = none ∧ frame = x.frame ∧
      body = bodies.resume x.body x.frame input ∧ ∃ forgets,
        w' = w.modifyHandle c (·.entered forgets) := by
  unfold enter at h
  split at h
  · cases h
  · next x hx =>
      split at h
      · cases h
      · next hr =>
          cases h
          exact ⟨x, hx, hr, rfl, rfl, _, rfl⟩

/-- A coroutine that refuses an input leaves the world as it is. -/
theorem enter_eq_error {bodies : Bodies β σ} {c : CoroutineRef} {input : Input} {e : Abort}
    (h : w.enter bodies c input = (.error e, w')) : w' = w := by
  unfold enter at h
  split at h
  · cases h
    rfl
  · split at h <;> cases h
    rfl

namespace Passes

variable {bodies : Bodies β σ}

theorem of_arranged (h : w.Arranged w') : Passes bodies w w' := ⟨[], .arrange h⟩

theorem refl (w : World β σ) : Passes bodies w w := of_arranged (.refl w)

theorem of_handles (h : w'.handles = w.handles) : Passes bodies w w' := of_arranged (.rest h)

theorem trans (h : Passes bodies w w') (h' : Passes bodies w' w'') : Passes bodies w w'' :=
  let ⟨log, h⟩ := h
  let ⟨log', h'⟩ := h'
  ⟨log ++ log', h.trans h'⟩

/-- Coroutines stay. -/
theorem size_handles_le (h : Passes bodies w w') : w.handles.size ≤ w'.handles.size := by
  obtain ⟨log, h⟩ := h
  induction h with
  | arrange h => exact h.size_handles_le
  | @resume w x r log _ _ _ _ forgets hentered _ _ ih =>
      have henters : r.entered.handles.size = w.handles.size := hentered ▸ Table.size_modify ..
      refine Nat.le_trans (Nat.le_trans (Nat.le_of_eq henters.symm) ih) ?_
      unfold leave
      split <;> exact Nat.le_of_eq (Table.size_modify ..).symm
  | trans _ _ ih ih' => exact Nat.le_trans ih ih'

/-- Requests have a chronicle if runs and resumes do. -/
theorem perform_runner {α : Type} (runner : Runner β σ)
    (hrun : ∀ s c (w : World β σ), Passes bodies w (runner.run s c w).2)
    (hres : ∀ c input (w : World β σ), Passes bodies w (runner.resume c input w).2)
    (a : Action β σ α) (w : World β σ) : Passes bodies w (a.perform runner w).2 := by
  induction a generalizing w with
  | done result => exact .refl w
  | read next ih => exact ih _ w
  | modify f next ih =>
      have hsame : Passes bodies w { w with shared := f w.shared } := .of_handles rfl
      exact hsame.trans (ih _)
  | identity next ih =>
      have hsame : Passes bodies w w.identity.2 := .of_handles rfl
      exact hsame.trans (ih _ _)
  | spawn name body locals next ih =>
      exact (of_arranged (.spawn w name body locals)).trans (ih _ _)
  | joinAll s members re next ih =>
      simp only [Action.perform]
      split
      · have hsame : Passes bodies w (w.newGroup members re).2 := .of_handles rfl
        exact hsame.trans (ih _ _)
      · exact ih _ w
  | run s c next ih =>
      simp only [Action.perform]
      split
      · exact (hrun s c w).trans (ih _ _)
      · exact hrun s c w
  | resume c input next ih =>
      simp only [Action.perform]
      split
      · exact (hres c input w).trans (ih _ _)
      · exact hres c input w
  | claim c task next ih => exact (of_arranged (.claim w c task)).trans (ih _ _)
  | release c next ih => exact (of_arranged (.release w c)).trans (ih _)

section

variable {resume : CoroutineRef → Input → World β σ → Except Abort Step × World β σ}

theorem of_step (hres : ∀ c input (w : World β σ), Passes bodies w (resume c input w).2)
    (w : World β σ) (s t : Nat) : Passes bodies w (w.step resume s t).2 := by
  have htake := handles_takeUp w s t
  simp only [World.step]
  split
  · next e =>
      rw [e] at htake
      exact .of_handles htake
  · next e =>
      rw [e] at htake
      exact .of_handles htake
  · next top input w' e =>
      rw [e] at htake
      have hr := hres top input w'
      split
      · next e' =>
          rw [e'] at hr
          exact .trans (.of_handles htake) hr
      · next e' =>
          rw [e'] at hr
          exact .trans (.of_handles htake) (hr.trans (of_arranged (.absorb ..)))

theorem of_drain (hres : ∀ c input (w : World β σ), Passes bodies w (resume c input w).2)
    (s fuel : Nat) (w : World β σ) : Passes bodies w (World.drain resume s fuel w).2 := by
  induction fuel generalizing w with
  | zero => exact .refl w
  | succ fuel ih =>
      simp only [World.drain]
      split
      · exact .refl w
      · next t w' hd =>
          have hstep := of_step hres w' s t
          refine .trans (.of_handles (handles_dequeue hd)) ?_
          split
          · next e =>
              rw [e] at hstep
              exact hstep.trans (ih _)
          · next e =>
              rw [e] at hstep
              exact hstep

theorem of_runWith (hres : ∀ c input (w : World β σ), Passes bodies w (resume c input w).2)
    (fuel s : Nat) (c : CoroutineRef) (w : World β σ) :
    Passes bodies w (w.runWith resume fuel s c).2 := by
  have hstart := Arranged.start w s c
  simp only [World.runWith]
  split
  · next e =>
      rw [e] at hstart
      exact of_arranged hstart
  · next root w₁ e =>
      rw [e] at hstart
      have hdrain := of_drain hres s fuel w₁
      have hover : ∀ v : World β σ, Passes bodies v ((v.release c).deactivate s) := fun v =>
        of_arranged ((Arranged.release v c).trans (.rest rfl))
      refine (of_arranged hstart).trans (Passes.trans ?_ (hover _))
      split
      · next e' =>
          rw [e'] at hdrain
          exact hdrain.trans (.of_handles (handles_conclude ..))
      · next e' =>
          rw [e'] at hdrain
          exact hdrain

end

/-- **Every resume has a chronicle**, by induction on how deep runs may nest. -/
theorem resume (bodies : Bodies β σ) (fuel : Nat) (c : CoroutineRef) (input : Input)
    (w : World β σ) : Passes bodies w (World.resume bodies fuel c input w).2 := by
  induction fuel generalizing c input w with
  | zero => exact .refl w
  | succ fuel ih =>
      rw [resume_succ, resumeWith]
      rcases he : w.enter bodies c input with ⟨e | ⟨frame, body⟩, w₁⟩
      · exact .of_handles (by rw [enter_eq_error he])
      · obtain ⟨x, hx, hin, rfl, rfl, forgets, rfl⟩ := enter_eq_ok he
        obtain ⟨log, h⟩ := perform_runner (runner bodies fuel)
          (fun s c w => of_runWith ih fuel s c w) ih (bodies.resume x.body x.frame input)
          (w.modifyHandle c (·.entered forgets))
        exact ⟨_, .resume (r := ⟨c, x.body, x.frame, input, fuel, _, _, _⟩) hx hin rfl rfl rfl rfl h⟩

/-- Every run has a chronicle. -/
theorem run (bodies : Bodies β σ) (fuel s : Nat) (c : CoroutineRef) (w : World β σ) :
    Passes bodies w (w.run bodies fuel s c).2 := of_runWith (Passes.resume bodies fuel) fuel s c w

/-- **Whatever an action does has a chronicle.** -/
theorem perform {α : Type} (bodies : Bodies β σ) (fuel : Nat) (a : Action β σ α) (w : World β σ) :
    Passes bodies w (a.perform (runner bodies fuel) w).2 :=
  perform_runner _ (Passes.run bodies fuel) (Passes.resume bodies fuel) a w

theorem step (bodies : Bodies β σ) (depth : Nat) (w : World β σ) (s t : Nat) :
    Passes bodies w (w.step (World.resume bodies depth) s t).2 :=
  of_step (Passes.resume bodies depth) w s t

/-- The turns of a run have a chronicle. -/
theorem of_turns {depth s : Nat} {log : List (CoroutineRef × Step)}
    (h : Turns (World.resume bodies depth) s w log w') : Passes bodies w w' := by
  induction h with
  | refl => exact .refl w
  | @more t _ w₁ w₂ w₃ _ hd hs ih =>
      have hstep := Passes.step bodies depth w₂ s t
      rw [hs] at hstep
      exact ih.trans (.trans (.of_handles (handles_dequeue hd)) hstep)

end Passes

end World

end Coroutines
