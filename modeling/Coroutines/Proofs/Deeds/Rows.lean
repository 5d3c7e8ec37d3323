import Coroutines.Proofs.Deeds.Log
import Coroutines.Proofs.Suspension.Lives

/-!
# The calls on one coroutine

Each call does to the row of its coroutine what the handle allows (`Call.Lawful`), and finds the row as
the call before left it (`Linked`).  Nothing else touches the row: that is `World.Attests`, which holds
of every operation and its log.  A coroutine that runs stays so until its own resume is over, because
what its body asks of it in the meantime is refused; so the calls of a body on its own coroutine fit
between the entry and the leaving.
-/

namespace Coroutines

variable {β σ : Type}

/-- The status that the end of a body gives to its coroutine. -/
def statusAfter : Except Abort (Frame × Step) → Status
  | .ok (_, .await _) => .suspended
  | .ok (_, .ret _) => .completed
  | .ok (_, .raise _) | .error _ => .failed

/-- The outcome that the end of a body gives to its coroutine; an error of the host gives none. -/
def outcomeAfter : Except Abort (Frame × Step) → Option Outcome
  | .ok (_, .await _) => none
  | .ok (_, .ret v) => some (.ok v)
  | .ok (_, .raise r) | .error (.script r) => some (.error r)
  | .error _ => none

theorem Handle.status_after (x : Handle β) (frame : Frame) (result : Except Abort (Frame × Step)) :
    (x.after frame result).status = statusAfter result := by
  rcases result with (_ | _ | _ | _ | _) | ⟨_, _ | _ | _⟩ <;> rfl

theorem Handle.owner_after (x : Handle β) (frame : Frame) (result : Except Abort (Frame × Step)) :
    (x.after frame result).owner = x.owner := by
  rcases result with (_ | _ | _ | _ | _) | ⟨_, _ | _ | _⟩ <;> rfl

theorem Handle.outcome_after {x : Handle β} (hx : x.outcome = none) (frame : Frame)
    (result : Except Abort (Frame × Step)) :
    (x.after frame result).outcome = outcomeAfter result := by
  rcases result with (_ | _ | _ | _ | _) | ⟨_, _ | _ | _⟩ <;> first | rfl | exact hx

/-- Why a coroutine refuses to be resumed: it runs, it has finished, or the input is not one for its
status. -/
inductive Handle.Refuses (x : Handle β) (input : Input) : Abort → Prop
  | busy (h : x.status = .running) : Refuses x input (.raise .coroutineBusy)
  | over (h : x.status = .completed ∨ x.status = .failed) : Refuses x input (.raise .coroutineReuse)
  | unfit (h : x.status = .created ∧ input.isStart = false ∨
      x.status = .suspended ∧ input.isStart = true) :
    Refuses x input
      (.host s!"Coroutine '{x.name}' cannot take '{input.kind}' input while {x.status.name}.")

theorem Handle.refuses_of_refusal? {x : Handle β} {input : Input} {e : Abort}
    (h : x.refusal? input = some e) : x.Refuses input e := by
  unfold refusal? at h
  split at h
  · next hs => exact Option.some.inj h ▸ .busy hs
  · split at h
    · next hs =>
      refine Option.some.inj h ▸ .over ?_
      cases hx : x.status <;> simp_all [Status.isFinished]
    · split at h
      · refine Option.some.inj h ▸ .unfit ?_
        cases hx : x.status <;> cases hi : input.isStart <;> simp_all [Status.isFinished]
      · cases h

namespace Call

/-- What a call may do to the row of its coroutine. -/
def Lawful (c : Call β) : Prop :=
  match c.act with
  | .make => c.before = none ∧ ∃ name body locals, c.after = some (.create name body locals)
  | .claim task refusal =>
    (refusal = none ↔ ∃ x, c.before = some x ∧ x.status = .created ∧ x.owner = none) ∧
      c.after = if refusal = none then c.before.map (·.ownedBy task) else c.before
  | .release => c.after = c.before.map Handle.released
  | .refuse input reason =>
    c.after = c.before ∧ ∀ x, c.before = some x → x.Refuses input reason
  | .enter input => ∃ x forgets, c.before = some x ∧ c.after = some (x.entered forgets) ∧
      (x.status = .created ∧ input.isStart = true ∨ x.status = .suspended ∧ input.isStart = false)
  | .leave result => ∃ x frame, c.before = some x ∧ c.after = some (x.after frame result) ∧
      x.status = .running

end Call

/-- Each call finds the row as the one before left it. -/
def Linked : Option (Handle β) → List (Call β) → Option (Handle β) → Prop
  | x, [], y => x = y
  | x, c :: rest, y => c.before = x ∧ Linked c.after rest y

theorem linked_append {x z : Option (Handle β)} {l l' : List (Call β)} :
    Linked x (l ++ l') z ↔ ∃ y, Linked x l y ∧ Linked y l' z := by
  induction l generalizing x with
  | nil => exact ⟨fun h => ⟨x, rfl, h⟩, fun ⟨_, e, h⟩ => e ▸ h⟩
  | cons c l ih =>
    simp only [List.cons_append, Linked, ih]
    exact ⟨fun ⟨hb, y, h, h'⟩ => ⟨y, ⟨hb, h⟩, h'⟩, fun ⟨y, ⟨hb, h⟩, h'⟩ => ⟨hb, y, h, h'⟩⟩

@[simp] theorem calls_nil (i : Nat) : calls i ([] : List (Deed β)) = [] := rfl

@[simp] theorem calls_append (i : Nat) (log log' : List (Deed β)) :
    calls i (log ++ log') = calls i log ++ calls i log' := List.filterMap_append ..

theorem calls_cons_call (i : Nat) (c : Call β) (log : List (Deed β)) :
    calls i (.call c :: log) = if c.row = i then c :: calls i log else calls i log := by
  by_cases h : c.row = i <;> simp [calls, h]

namespace World

variable {w w' w'' v v' : World β σ} {i : Nat} {log log' : List (Deed β)}

/-- The calls of a log on a coroutine tell what became of its row. -/
structure Attests (i : Nat) (w : World β σ) (log : List (Deed β)) (w' : World β σ) : Prop where
  linked : Linked (w.handles.get? i) (calls i log) (w'.handles.get? i)
  lawful : ∀ c ∈ calls i log, c.Lawful
  /-- A coroutine that runs stays so. -/
  running : ∀ x, w.handles.get? i = some x → x.status = .running →
    ∃ y, w'.handles.get? i = some y ∧ y.status = .running

namespace Attests

theorem append (h : Attests i w log w') (h' : Attests i w' log' w'') :
    Attests i w (log ++ log') w'' where
  linked := by
    rw [calls_append]
    exact linked_append.mpr ⟨_, h.linked, h'.linked⟩
  lawful := by
    rw [calls_append]
    exact fun c hc => (List.mem_append.mp hc).elim (h.lawful c) (h'.lawful c)
  running := by
    intro x hx hs
    obtain ⟨y, hy, hs'⟩ := h.running x hx hs
    exact h'.running y hy hs'

/-- Where no row changes and no call is made. -/
theorem silent (log : List (Deed β)) (hl : calls i log = []) (h : w'.handles = w.handles) :
    Attests i w log w' where
  linked := by rw [hl, h]; rfl
  lawful := by rw [hl]; exact fun c hc => absurd hc List.not_mem_nil
  running := fun x hx hs => ⟨x, h ▸ hx, hs⟩

theorem refl (w : World β σ) : Attests i w [] w := silent [] rfl rfl

/-- The rest of the world does not matter. -/
theorem congr (h : Attests i w log w') (e : v.handles = w.handles)
    (e' : v'.handles = w'.handles) : Attests i v log v' where
  linked := by rw [e, e']; exact h.linked
  lawful := h.lawful
  running := by rw [e, e']; exact h.running

/-- A call on another coroutine. -/
theorem other {c : CoroutineRef} {act : Act} (hi : c.id ≠ i)
    (h : w'.handles.get? i = w.handles.get? i) : Attests i w [w.callDeed c act w'] w' where
  linked := by rw [callDeed, calls_cons_call, if_neg hi, h]; rfl
  lawful := by
    rw [callDeed, calls_cons_call, if_neg hi]
    exact fun c hc => absurd hc List.not_mem_nil
  running := fun x hx hs => ⟨x, h ▸ hx, hs⟩

/-- A call on the coroutine that leaves it running if it runs. -/
theorem own {c : CoroutineRef} {act : Act}
    (hc : Call.Lawful ⟨c.id, act, w.handles.get? c.id, w'.handles.get? c.id⟩)
    (hrun : ∀ x, w.handles.get? c.id = some x → x.status = .running →
      ∃ y, w'.handles.get? c.id = some y ∧ y.status = .running) :
    Attests c.id w [w.callDeed c act w'] w' where
  linked := by rw [callDeed, calls_cons_call, if_pos rfl]; exact ⟨rfl, rfl⟩
  lawful := by
    rw [callDeed, calls_cons_call, if_pos rfl]
    exact fun d hd => List.mem_singleton.mp hd ▸ hc
  running := hrun

/-- A call that changes no row but that of its coroutine, which stays running if it runs. -/
theorem of_call {c : CoroutineRef} {act : Act}
    (hc : Call.Lawful ⟨c.id, act, w.handles.get? c.id, w'.handles.get? c.id⟩)
    (hrun : ∀ x, w.handles.get? c.id = some x → x.status = .running →
      ∃ y, w'.handles.get? c.id = some y ∧ y.status = .running)
    (hother : ∀ i, c.id ≠ i → w'.handles.get? i = w.handles.get? i) :
    Attests i w [w.callDeed c act w'] w' := by
  by_cases hi : c.id = i
  · exact hi ▸ own hc hrun
  · exact other hi (hother i hi)

/-! ### Single calls -/

theorem spawn (w : World β σ) (name : String) (body : β) (locals : Bindings Value) :
    Attests i w [w.makeDeed name body locals] (w.spawn name body locals).2 := by
  have hnone : w.handles.get? w.handles.size = none := Table.get?_size ..
  refine of_call ⟨hnone, name, body, locals, ?_⟩ (fun x hx => ?_) fun i hi => ?_
  · exact (Table.get?_push ..).trans (if_pos rfl)
  · exact absurd (hnone.symm.trans hx) (fun h => by cases h)
  · exact (Table.get?_push ..).trans (if_neg (Ne.symm hi))

theorem claim (w : World β σ) (c : CoroutineRef) (task : Nat) :
    Attests i w [w.claimDeed c task] (w.claim c task).2 := by
  rw [claimDeed]
  rcases h : w.claim c task with ⟨- | f, w'⟩
  · obtain ⟨x, hx, hs, ho, rfl⟩ := claim_eq_none h
    have hrow : (w.modifyHandle c (·.ownedBy task)).handles.get? c.id = some (x.ownedBy task) :=
      get?_modifyHandle_self hx _
    refine of_call ⟨iff_of_true rfl ⟨x, hx, hs, ho⟩, ?_⟩ (fun y hy hrun => ?_) fun i hi => ?_
    · rw [if_pos rfl, hrow, hx]
      rfl
    · obtain rfl := Option.some.inj (hx.symm.trans hy)
      exact ⟨_, hrow, hrun⟩
    · rw [get?_handles_modifyHandle, if_neg hi]
  · have hsame := claim_eq_some h
    refine of_call ⟨iff_of_false (fun e => by cases e) fun ⟨x, hx, hs, ho⟩ => ?_, ?_⟩
      (fun y hy hrun => ⟨y, hsame ▸ hy, hrun⟩) fun i hi => hsame ▸ rfl
    · have hx : w.handles.get? c.id = some x := hx
      have hfree := Handle.claimFailure?_eq_none_iff.mpr ⟨hs, ho⟩
      simp only [World.claim, hx, hfree] at h
      cases h
    · rw [if_neg (fun e => by cases e), hsame]

theorem release (w : World β σ) (c : CoroutineRef) :
    Attests i w [w.releaseDeed c] (w.release c) := by
  have hrow : (w.release c).handles.get? c.id = (w.handles.get? c.id).map Handle.released :=
    (get?_handles_modifyHandle ..).trans (if_pos rfl)
  refine of_call hrow (fun x hx hs => ⟨_, hrow.trans (congrArg _ hx), hs⟩) fun i hi => ?_
  exact (get?_handles_modifyHandle ..).trans (if_neg hi)

/-! ### Steps of a run -/

theorem startMember (w : World β σ) (s : Nat) (g : GroupRef) (index : Nat) (c : CoroutineRef) :
    Attests i w [(w.addMember s g index c).2.claimDeed c
      ((w.addMember s g index c).2.taskId (w.addMember s g index c).1)]
      (w.startMember s g index c) := by
  have hadd : (w.addMember s g index c).2.handles = w.handles := by
    obtain ⟨id, w', he, -, -, hhandles, -⟩ := w.addMember_spec s g index c
    rw [he]
    exact hhandles
  refine (claim _ c _).congr hadd.symm ?_
  simp only [World.startMember]
  split <;>
    · next e =>
      rw [e]
      rfl

theorem startMembers (w : World β σ) (s : Nat) (g : GroupRef) (index : Nat)
    (cs : List CoroutineRef) :
    Attests i w (w.memberDeeds s g index cs) (w.startMembers s g index cs) := by
  induction cs generalizing w index with
  | nil => exact refl w
  | cons c rest ih => exact (startMember w s g index c).append (ih ..)

theorem startGroup (w : World β σ) (s parent : Nat) (g : GroupRef) :
    Attests i w (w.groupDeeds s parent g) (w.startGroup s parent g).2 := by
  have hmembers := startMembers (i := i)
    ((w.modifyGroup g fun x => { x with awaitedBy := some parent }).emit s
      (.joinStart ((w.modifyGroup g fun x => { x with awaitedBy := some parent }).taskId parent)
        ((w.modifyGroup g fun x => { x with awaitedBy := some parent }).groupSize g))) s g 0
  exact (silent [.join s _] rfl rfl).append ((hmembers _).congr rfl (handles_closeGroup ..))

theorem suspend (w : World β σ) (s t : Nat) (target : Target) :
    Attests i w (w.suspendDeeds s t target) (w.suspend s t target).2 := by
  cases target with
  | group g =>
    simp only [suspendDeeds, World.suspend]
    split
    · exact silent _ rfl rfl
    · exact (startGroup _ s t g).congr rfl rfl
  | coroutine c => exact (claim _ c _).congr rfl rfl

theorem absorb (w : World β σ) (s t : Nat) (top : CoroutineRef) (step : Step) :
    Attests i w (w.absorbDeeds s t top step) (w.absorb s t top step).2 := by
  cases step with
  | await target => exact suspend w s t target
  | ret v => exact (release _ top).congr rfl (handles_unwind ..)
  | raise r => exact (release _ top).congr rfl (handles_unwind ..)

section

variable {resume : CoroutineRef → Input → World β σ → Except Abort Step × World β σ}
  {watch : CoroutineRef → Input → World β σ → List (Deed β)}

theorem step (hres : ∀ c input (w : World β σ), Attests i w (watch c input w) (resume c input w).2)
    (w : World β σ) (s t : Nat) :
    Attests i w (w.turnDeeds resume watch s t) (w.step resume s t).2 := by
  have htake := handles_takeUp w s t
  rcases htu : w.takeUp s t with ⟨e | _ | ⟨top, input⟩, w'⟩ <;> rw [htu] at htake <;>
    simp only [World.step, turnDeeds, htu]
  · exact silent _ rfl htake
  · exact silent _ rfl htake
  · have hr := hres top input w'
    rcases hrun : resume top input w' with ⟨e | step, w''⟩ <;> rw [hrun] at hr
    · exact hr.congr htake.symm rfl
    · have hturn : Attests i w'' (.turn s top step :: w''.absorbDeeds s t top step)
          (w''.absorb s t top step).2 :=
        (silent [.turn s top step] rfl rfl).append (absorb ..)
      exact (hr.append hturn).congr htake.symm rfl

theorem drain (hres : ∀ c input (w : World β σ), Attests i w (watch c input w) (resume c input w).2)
    (s fuel : Nat) (w : World β σ) :
    Attests i w (drainDeeds resume watch s fuel w) (World.drain resume s fuel w).2 := by
  induction fuel generalizing w with
  | zero => exact refl w
  | succ fuel ih =>
    rcases hd : w.dequeue s with _ | ⟨t, w₁⟩ <;> simp only [World.drain, drainDeeds, hd]
    · exact refl w
    · have hstep := step hres w₁ s t
      rcases hs : w₁.step resume s t with ⟨e | ⟨⟩, w₂⟩ <;> rw [hs] at hstep
      · exact hstep.congr (handles_dequeue hd).symm rfl
      · exact (hstep.append (ih w₂)).congr (handles_dequeue hd).symm rfl

theorem start (w : World β σ) (s : Nat) (c : CoroutineRef) :
    Attests i w (w.startDeeds s c) (w.start s c).2 := by
  have hclaim := claim (i := i) (w.newTask s c 0 none).2 c
    ((w.newTask s c 0 none).2.taskId (w.newTask s c 0 none).1)
  by_cases hactive : w.isActive s = true
  · simp only [World.start, startDeeds, hactive, if_true]
    exact refl w
  · simp only [World.start, startDeeds, hactive, if_false, Bool.false_eq_true]
    rcases hc : (w.newTask s c 0 none).2.claim c
      ((w.newTask s c 0 none).2.taskId (w.newTask s c 0 none).1) with ⟨_ | f, w'⟩ <;>
      rw [hc] at hclaim
    · exact (hclaim.append (silent [.begin s c] rfl rfl)).congr rfl rfl
    · exact hclaim.congr rfl rfl

theorem runWith (hres : ∀ c input (w : World β σ), Attests i w (watch c input w) (resume c input w).2)
    (fuel s : Nat) (c : CoroutineRef) (w : World β σ) :
    Attests i w (w.runDeeds resume watch fuel s c) (w.runWith resume fuel s c).2 := by
  have hstart := start (i := i) w s c
  rcases hs : w.start s c with ⟨e | root, w₁⟩ <;> rw [hs] at hstart <;>
    simp only [World.runWith, runDeeds, hs]
  · exact hstart
  · have hdrain := drain hres s fuel w₁
    rcases hd : World.drain resume s fuel w₁ with ⟨e | ⟨⟩, w₂⟩ <;> rw [hd] at hdrain
    · exact (hstart.append hdrain).append ((release w₂ c).congr rfl rfl)
    · have hconclude : Attests i w₂ (w₂.concludeDeeds s root) (w₂.conclude s root c).2 := by
        refine silent _ ?_ (handles_conclude ..)
        unfold concludeDeeds
        split <;> rfl
      exact (hstart.append hdrain).append
        (hconclude.append ((release (w₂.conclude s root c).2 c).congr rfl rfl))

end

/-! ### Actions and resumes -/

theorem perform {α : Type} {runner : Runner β σ} {watch : Watch β σ}
    (hrun : ∀ s c (w : World β σ), Attests i w (watch.run s c w) (runner.run s c w).2)
    (hres : ∀ c input (w : World β σ), Attests i w (watch.resume c input w) (runner.resume c input w).2)
    (a : Action β σ α) (w : World β σ) :
    Attests i w (a.deeds runner watch w) (a.perform runner w).2 := by
  induction a generalizing w with
  | done result => exact refl w
  | read next ih => exact ih _ w
  | modify f next ih => exact (ih _).congr rfl rfl
  | identity next ih => exact (ih _ _).congr rfl rfl
  | spawn name body locals next ih => exact (spawn w name body locals).append (ih _ _)
  | joinAll s members re next ih =>
    by_cases hactive : w.isActive s = true
    · simp only [Action.deeds, Action.perform, hactive, if_true]
      exact (ih _ _).congr rfl rfl
    · simp only [Action.deeds, Action.perform, hactive, if_false, Bool.false_eq_true]
      exact ih _ w
  | run s c next ih =>
    have h := hrun s c w
    simp only [Action.deeds, Action.perform]
    rcases splitScript (runner.run s c w).1 with e | r
    · exact h
    · exact h.append (ih r _)
  | resume c input next ih =>
    have h := hres c input w
    simp only [Action.deeds, Action.perform]
    rcases splitScript (runner.resume c input w).1 with e | r
    · exact h
    · exact h.append (ih r _)
  | claim c task next ih => exact (claim w c task).append (ih _ _)
  | release c next ih => exact (release w c).append (ih _)

/-- A body is entered, does what it does, and is left. -/
theorem resumeWith {bodies : Bodies β σ}
    {perform : Action β σ (Frame × Step) → World β σ → Except Abort (Frame × Step) × World β σ}
    {deeds : Action β σ (Frame × Step) → World β σ → List (Deed β)}
    (h : ∀ a (w : World β σ), Attests i w (deeds a w) (perform a w).2) {c : CoroutineRef}
    {input : Input} {frame : Frame} {action : Action β σ (Frame × Step)} {w₁ : World β σ}
    (he : w.enter bodies c input = (.ok (frame, action), w₁)) :
    Attests i w (w.callDeed c (.enter input) w₁ :: deeds action w₁ ++
        [(perform action w₁).2.callDeed c (.leave (perform action w₁).1)
          ((perform action w₁).2.leave c frame (perform action w₁).1).2])
      ((perform action w₁).2.leave c frame (perform action w₁).1).2 := by
  obtain ⟨x, hx, hin, rfl, -, forgets, rfl⟩ := enter_eq_ok he
  have hbody := h action (w.modifyHandle c (·.entered forgets))
  rcases hp : perform action (w.modifyHandle c (·.entered forgets)) with ⟨result, w₂⟩
  rw [hp] at hbody
  by_cases hi : c.id = i
  · subst hi
    have hentry : (w.modifyHandle c (·.entered forgets)).handles.get? c.id = some (x.entered forgets) :=
      get?_modifyHandle_self hx _
    -- the coroutine runs until its body is over
    obtain ⟨y, hy, hrun⟩ := hbody.running _ hentry rfl
    have hleft : (w₂.leave c x.frame result).2.handles.get? c.id = some (y.after x.frame result) := by
      rw [leave_snd, get?_handles_modifyHandle, if_pos rfl, hy]
      rfl
    have htaken := Handle.refusal?_eq_none_iff.mp hin
    refine ⟨?_, ?_, fun z hz hs => ?_⟩
    · rw [calls_append, callDeed, calls_cons_call, if_pos rfl, callDeed, calls_cons_call, if_pos rfl]
      exact ⟨rfl, linked_append.mpr ⟨_, hbody.linked, rfl, rfl⟩⟩
    · rw [calls_append, callDeed, calls_cons_call, if_pos rfl]
      intro d hd
      rcases List.mem_append.mp hd with hd | hd
      · rcases List.mem_cons.mp hd with rfl | hd
        · exact ⟨x, forgets, hx, hentry, htaken⟩
        · exact hbody.lawful d hd
      · rw [callDeed, calls_cons_call, if_pos rfl] at hd
        obtain rfl := List.mem_singleton.mp hd
        exact ⟨y, x.frame, hy, hleft, hrun⟩
    · -- a coroutine that runs cannot be entered
      obtain rfl := Option.some.inj (hx.symm.trans hz)
      rcases htaken with ⟨h', -⟩ | ⟨h', -⟩ <;> cases h'.symm.trans hs
  · have henter : Attests i w [w.callDeed c (.enter input) (w.modifyHandle c (·.entered forgets))]
        (w.modifyHandle c (·.entered forgets)) :=
      other hi ((get?_handles_modifyHandle ..).trans (if_neg hi))
    exact (henter.append hbody).append (other hi (get?_handles_leave hi ..))

/-- **Whatever a resume does to a coroutine is in its log**, by induction on how deep bodies may nest. -/
theorem resume (bodies : Bodies β σ) (fuel : Nat) (c : CoroutineRef) (input : Input)
    (w : World β σ) :
    Attests i w (resumeDeeds bodies fuel c input w) (World.resume bodies fuel c input w).2 := by
  induction fuel generalizing c input w with
  | zero => exact refl w
  | succ fuel ih =>
    rw [resume_succ, World.resumeWith, resumeDeeds]
    rcases he : w.enter bodies c input with ⟨reason | ⟨frame, action⟩, w₁⟩
    · obtain rfl := enter_eq_error he
      refine of_call ⟨rfl, fun x hx => ?_⟩ (fun x hx hs => ⟨x, hx, hs⟩) fun _ _ => rfl
      simp only [enter, show w₁.handles.get? c.id = some x from hx] at he
      split at he <;> cases he
      next hr => exact Handle.refuses_of_refusal? hr
    · exact resumeWith (perform (fun s c w => runWith ih fuel s c w) ih) he

/-- **Whatever an action does to a coroutine is in its log.** -/
theorem action {α : Type} (bodies : Bodies β σ) (fuel : Nat) (a : Action β σ α) (w : World β σ) :
    Attests i w (w.deeds bodies fuel a) (w.perform bodies fuel a).2 :=
  perform (fun s c w => runWith (Attests.resume bodies fuel) fuel s c w)
    (Attests.resume bodies fuel) a w

theorem of_records {bodies : Bodies β σ} (h : Records bodies w log w') : Attests i w log w' := by
  induction h with
  | refl => exact .refl w
  | more _ fuel a ih => exact ih.append (action bodies fuel a _)

end Attests

end World

end Coroutines
