import Coroutines.Proofs.Budget.Blind

/-!
# What bodies cannot tell apart

Bodies see the coroutines, the groups, the state that they share and which schedulers are busy.  They do
not see tasks, what runs in progress have come to, or the trace (`World.Indistinct`).  What asks for
nothing else does the same in worlds that differ only there, and leaves the runs in progress alone
(`World.Unaware`).
-/

namespace Coroutines

/-- What others see of a scheduler. -/
def Scheduler.face (x : Scheduler) : Nat × Bool × Option Number :=
  (x.nextTask, x.context.isSome, x.maxSteps)

namespace World

variable {β σ α γ : Type} {w w' w'' v v' : World β σ}

/-! ### Worlds that look the same -/

/-- Worlds that differ in their tasks, in what runs in progress have come to and in the trace only. -/
structure Indistinct (w v : World β σ) : Prop where
  handles : w.handles = v.handles
  groups : w.groups = v.groups
  nextIdentity : w.nextIdentity = v.nextIdentity
  shared : w.shared = v.shared
  faces : ∀ s, (w.schedulers.get? s).map Scheduler.face = (v.schedulers.get? s).map Scheduler.face

namespace Indistinct

theorem refl (w : World β σ) : w.Indistinct w := ⟨rfl, rfl, rfl, rfl, fun _ => rfl⟩

theorem symm (h : w.Indistinct v) : v.Indistinct w :=
  ⟨h.handles.symm, h.groups.symm, h.nextIdentity.symm, h.shared.symm, fun s => (h.faces s).symm⟩

theorem trans (h : w.Indistinct w') (h' : w'.Indistinct w'') : w.Indistinct w'' :=
  ⟨h.handles.trans h'.handles, h.groups.trans h'.groups, h.nextIdentity.trans h'.nextIdentity,
    h.shared.trans h'.shared, fun s => (h.faces s).trans (h'.faces s)⟩

theorem isActive (h : w.Indistinct v) (s : Nat) : w.isActive s = v.isActive s := by
  have hs := h.faces s
  simp only [World.isActive]
  cases hw : w.schedulers.get? s <;> cases hv : v.schedulers.get? s <;>
    simp [hw, hv, Scheduler.face] at hs ⊢
  exact hs.2.1

/-- The same change to a scheduler in both worlds, as far as others see. -/
theorem modifyScheduler (h : w.Indistinct v) (s : Nat) {f g : Scheduler → Scheduler}
    (hfg : ∀ x y, x.face = y.face → (f x).face = (g y).face) :
    (w.modifyScheduler s f).Indistinct (v.modifyScheduler s g) := by
  refine ⟨h.handles, h.groups, h.nextIdentity, h.shared, fun s' => ?_⟩
  have hs := h.faces s'
  simp only [World.modifyScheduler, Table.get?_modify]
  split
  · cases hw : w.schedulers.get? s' <;> cases hv : v.schedulers.get? s' <;>
      simp only [hw, hv, Option.map_some, Option.map_none, Option.some.injEq, reduceCtorEq] at hs ⊢
    exact hfg _ _ hs
  · exact hs

theorem modifyHandle (h : w.Indistinct v) (c : CoroutineRef) (f : Handle β → Handle β) :
    (w.modifyHandle c f).Indistinct (v.modifyHandle c f) :=
  ⟨congrArg (·.modify c.id f) h.handles, h.groups, h.nextIdentity, h.shared, h.faces⟩

theorem emit (w : World β σ) (s : Nat) (e : Event) : (w.emit s e).Indistinct w :=
  ⟨rfl, rfl, rfl, rfl, fun _ => rfl⟩

theorem modifyTask (w : World β σ) (t : Nat) (f : Task → Task) : (w.modifyTask t f).Indistinct w :=
  ⟨rfl, rfl, rfl, rfl, fun _ => rfl⟩

theorem modifyContext (w : World β σ) (s : Nat) (f : RunContext → RunContext) :
    (w.modifyContext s f).Indistinct w := by
  refine ⟨rfl, rfl, rfl, rfl, fun s' => ?_⟩
  simp only [World.modifyContext, World.modifyScheduler, Table.get?_modify]
  split
  · cases w.schedulers.get? s' <;> simp [Scheduler.face]
  · rfl

theorem claim (h : w.Indistinct v) (c : CoroutineRef) (task : Nat) :
    (w.claim c task).1 = (v.claim c task).1 ∧
      (w.claim c task).2.Indistinct (v.claim c task).2 := by
  simp only [World.claim, h.handles]
  split
  · exact ⟨rfl, h⟩
  · split
    · exact ⟨rfl, h⟩
    · exact ⟨rfl, h.modifyHandle c _⟩

theorem release (h : w.Indistinct v) (c : CoroutineRef) :
    (w.release c).Indistinct (v.release c) := h.modifyHandle c _

end Indistinct

/-! ### Runs that are left alone -/

/-- The runs in progress and the tasks stay as they are, but for one scheduler and one task. -/
structure Undisturbed (s t : Option Nat) (w w' : World β σ) : Prop where
  runs {s' : Nat} {x : Scheduler} (h : s ≠ some s') (hx : w.schedulers.get? s' = some x)
    (hc : x.context.isSome = true) : w'.schedulers.get? s' = some x
  isActive {s' : Nat} (h : s ≠ some s') : w'.isActive s' = w.isActive s'
  schedulers : w'.schedulers.size = w.schedulers.size
  tasks {t' : Nat} {x : Task} (h : t ≠ some t') (hx : w.tasks.get? t' = some x) :
    w'.tasks.get? t' = some x

namespace Undisturbed

variable {s t : Option Nat}

theorem of_eq (hs : w'.schedulers = w.schedulers) (ht : w'.tasks = w.tasks) : Undisturbed s t w w' where
  runs _ hx _ := hs ▸ hx
  isActive _ := by simp only [World.isActive, hs]
  schedulers := congrArg Table.size hs
  tasks _ hx := ht ▸ hx

theorem refl (w : World β σ) : Undisturbed s t w w := of_eq rfl rfl

theorem trans (h : Undisturbed s t w w') (h' : Undisturbed s t w' w'') : Undisturbed s t w w'' where
  runs hs hx hc := h'.runs hs (h.runs hs hx hc) hc
  isActive hs := (h'.isActive hs).trans (h.isActive hs)
  schedulers := h'.schedulers.trans h.schedulers
  tasks ht hx := h'.tasks ht (h.tasks ht hx)

/-- What is left alone altogether is left alone but for a scheduler and a task. -/
theorem weaken (h : Undisturbed none none w w') : Undisturbed s t w w' where
  runs _ := h.runs nofun
  isActive _ := h.isActive nofun
  schedulers := h.schedulers
  tasks _ := h.tasks nofun

theorem modifyScheduler (w : World β σ) (s : Nat) (f : Scheduler → Scheduler) :
    Undisturbed (some s) t w (w.modifyScheduler s f) where
  runs {s' _} hs hx _ := by
    rwa [World.modifyScheduler, Table.get?_modify_of_ne _ _ fun e => hs (congrArg some e)]
  isActive {s'} hs := by
    simp only [World.isActive, World.modifyScheduler,
      Table.get?_modify_of_ne _ _ fun e => hs (congrArg some e)]
  schedulers := Table.size_modify ..
  tasks _ hx := hx

theorem modifyTask (w : World β σ) (t : Nat) (f : Task → Task) :
    Undisturbed s (some t) w (w.modifyTask t f) where
  runs _ hx _ := hx
  isActive _ := rfl
  schedulers := rfl
  tasks ht hx := by
    rwa [get?_tasks_modifyTask, if_neg fun e => ht (congrArg some e)]

theorem emit (w : World β σ) (s' : Nat) (e : Event) : Undisturbed s t w (w.emit s' e) := of_eq rfl rfl

theorem claim (w : World β σ) (c : CoroutineRef) (task : Nat) : Undisturbed s t w (w.claim c task).2 := by
  rcases h : w.claim c task with ⟨- | f, w'⟩
  · obtain ⟨_, -, -, -, rfl⟩ := claim_eq_none h
    exact of_eq rfl rfl
  · obtain rfl := claim_eq_some h
    exact refl w'

end Undisturbed

/-! ### What does not see runs -/

/-- Something to do that comes to the same in worlds that look the same, and leaves the runs in progress
alone. -/
structure Unaware (f : World β σ → α × World β σ) : Prop where
  same {w v : World β σ} (h : w.Indistinct v) : (f w).1 = (f v).1 ∧ (f w).2.Indistinct (f v).2
  undisturbed (w : World β σ) : Undisturbed none none w (f w).2

namespace Unaware

theorem const (a : α) : Unaware fun w : World β σ => (a, w) :=
  ⟨fun h => ⟨rfl, h⟩, fun w => .refl w⟩

theorem congr {f g : World β σ → α × World β σ} (h : Unaware f) (e : ∀ w, g w = f w) : Unaware g :=
  funext e ▸ h

/-- Going on with a result. -/
theorem bind {f : World β σ → α × World β σ} {k : α → World β σ → γ × World β σ}
    (h : Unaware f) (hk : ∀ a, Unaware (k a)) : Unaware fun w => k (f w).1 (f w).2 where
  same hw := by
    obtain ⟨e, hw'⟩ := h.same hw
    rw [e]
    exact (hk _).same hw'
  undisturbed w := (h.undisturbed w).trans ((hk _).undisturbed _)

theorem map {f : World β σ → α × World β σ} (h : Unaware f) (g : α → γ) :
    Unaware fun w => (g (f w).1, (f w).2) := h.bind fun a => .const (g a)

theorem andThen {f : World β σ → Except Abort α × World β σ}
    {k : α → World β σ → Except Abort γ × World β σ} (h : Unaware f) (hk : ∀ a, Unaware (k a)) :
    Unaware fun w => World.andThen k (f w) := by
  have hnext : ∀ r, Unaware fun w => World.andThen k (r, w) := fun r => by
    cases r with
    | ok a => exact hk a
    | error e => exact .const (Except.error e)
  exact h.bind hnext

/-- A change that does not see runs, before something that does not. -/
theorem after {f : World β σ → α × World β σ} {g : World β σ → World β σ} (h : Unaware f)
    (hg : ∀ {w v : World β σ}, w.Indistinct v → (g w).Indistinct (g v))
    (hs : ∀ w, Undisturbed none none w (g w)) : Unaware fun w => f (g w) :=
  bind (f := fun w => ((), g w)) (k := fun _ => f) ⟨fun hw => ⟨rfl, hg hw⟩, hs⟩ fun _ => h

theorem claim (c : CoroutineRef) (task : Nat) :
    Unaware fun w : World β σ => w.claim c task :=
  ⟨fun h => h.claim c task, fun w => .claim w c task⟩

theorem newGroup (members : List CoroutineRef) (re : Bool) :
    Unaware fun w : World β σ => w.newGroup members re where
  same h := by
    simp only [World.newGroup, h.groups, true_and]
    exact ⟨h.handles, rfl, h.nextIdentity, h.shared, h.faces⟩
  undisturbed _ := .of_eq rfl rfl

theorem spawn (name : String) (body : β) (locals : Bindings Value) :
    Unaware fun w : World β σ => w.spawn name body locals where
  same h := by
    simp only [World.spawn, h.handles, true_and]
    exact ⟨rfl, h.groups, h.nextIdentity, h.shared, h.faces⟩
  undisturbed _ := .of_eq rfl rfl

theorem identity : Unaware fun w : World β σ => w.identity where
  same h := by
    simp only [World.identity, h.nextIdentity, true_and]
    exact ⟨h.handles, h.groups, rfl, h.shared, h.faces⟩
  undisturbed _ := .of_eq rfl rfl

/-- Actions do not see runs if the runs and resumes that they ask for do not. -/
theorem perform {runner : Runner β σ} (hrun : ∀ s c, Unaware (runner.run s c))
    (hres : ∀ c input, Unaware (runner.resume c input)) (a : Action β σ α) :
    Unaware (a.perform runner) := by
  induction a with
  | done result => exact .const result
  | read next ih =>
      refine ⟨fun {w v} h => ?_, fun w => (ih w.shared).undisturbed w⟩
      simp only [Action.perform, h.shared]
      exact (ih v.shared).same h
  | modify f next ih =>
      refine ih.after (g := fun w => { w with shared := f w.shared }) (fun h => ?_) fun _ => .of_eq rfl rfl
      exact ⟨h.handles, h.groups, h.nextIdentity, congrArg f h.shared, h.faces⟩
  | identity next ih => exact identity.bind ih
  | spawn name body locals next ih => exact (spawn name body locals).bind ih
  | joinAll s members re next ih =>
      refine ⟨fun {w v} h => ?_, fun w => ?_⟩
      · simp only [Action.perform, h.isActive s]
        split
        · exact ((newGroup members re).bind fun g => ih (.ok g)).same h
        · exact (ih _).same h
      · simp only [Action.perform]
        split
        · exact ((newGroup members re).bind fun g => ih (.ok g)).undisturbed w
        · exact (ih _).undisturbed w
  | run s c next ih =>
      exact ((hrun s c).map splitScript).andThen ih |>.congr fun w => perform_run ..
  | resume c input next ih =>
      exact ((hres c input).map splitScript).andThen ih |>.congr fun w => perform_resume ..
  | claim c task next ih => exact (claim c task).bind ih
  | release c next ih => exact ih.after (fun h => h.release c) fun _ => .of_eq rfl rfl

theorem enter (bodies : Bodies β σ) (c : CoroutineRef) (input : Input) :
    Unaware fun w : World β σ => w.enter bodies c input where
  same {w v} h := by
    simp only [World.enter, h.handles]
    split
    · exact ⟨rfl, h⟩
    · split
      · exact ⟨rfl, h⟩
      · exact ⟨rfl, h.modifyHandle c _⟩
  undisturbed w := by
    simp only [World.enter]
    split
    · exact .refl w
    · split
      · exact .refl w
      · exact .of_eq rfl rfl

theorem leave (c : CoroutineRef) (frame : Frame) (result : Except Abort (Frame × Step)) :
    Unaware fun w : World β σ => w.leave c frame result where
  same h := by
    unfold World.leave
    split <;> exact ⟨rfl, h.modifyHandle c _⟩
  undisturbed w := by
    unfold World.leave
    split <;> exact .of_eq rfl rfl

/-- A resume does not see runs if the runs and resumes within it do not. -/
theorem resume_succ {bodies : Bodies β σ} {fuel : Nat}
    (hrun : ∀ s c, Unaware (World.run bodies fuel s c))
    (hres : ∀ c input, Unaware (World.resume bodies fuel c input)) (c : CoroutineRef) (input : Input) :
    Unaware (World.resume bodies (fuel + 1) c input) := by
  have hbody : ∀ p : Frame × Action β σ (Frame × Step),
      Unaware (p.2.perform (runner bodies fuel)) := fun p => perform hrun hres p.2
  exact ((enter bodies c input).andThen fun p => (hbody p).bind (leave c p.1)).congr fun w =>
    resume_eq bodies fuel c input w

end Unaware

end World

end Coroutines
