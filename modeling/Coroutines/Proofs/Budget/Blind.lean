import Coroutines.Proofs.Budget.Limits
import Coroutines.Proofs.Chronicle

/-!
# What goes on during a run

While a run is in progress, what bodies do does not depend on the limit of its scheduler, and leaves
its count of resumes alone (`World.Blind`): the scheduler refuses to start another run, and the
runs of other schedulers have counts of their own.
-/

namespace Coroutines

namespace World

variable {β σ α : Type} {w : World β σ} {s : Nat} {n : Number}

/-- Something to do during a run of a scheduler that does not depend on the scheduler's limit and
leaves its count alone. -/
structure Blind (s : Nat) (n : Number) (f : World β σ → α × World β σ) : Prop where
  limited : ∀ w, w.isActive s = true →
    f (w.limited s n) = (f w).map id (World.limited · s n)
  gauge : ∀ w, w.isActive s = true → (f w).2.gauge s = w.gauge s

theorem Blind.isActive {f : World β σ → α × World β σ} (h : Blind s n f)
    (hw : w.isActive s = true) : (f w).2.isActive s = true := by
  rw [isActive_eq_gauge, h.gauge w hw, ← isActive_eq_gauge]
  exact hw

/-- What is blind after a change that is blind itself is so from before the change. -/
theorem Blind.after {f : World β σ → α × World β σ} {g : World β σ → World β σ}
    (h : Blind s n f) (hg : ∀ w, g (w.limited s n) = (g w).limited s n)
    (hgauge : ∀ w, (g w).gauge s = w.gauge s) : Blind s n fun w => f (g w) := by
  have hactive : ∀ w, w.isActive s = true → (g w).isActive s = true := fun w hw => by
    rw [isActive_eq_gauge, hgauge, ← isActive_eq_gauge]
    exact hw
  exact ⟨fun w hw => by rw [hg, h.limited _ (hactive w hw)],
    fun w hw => (h.gauge _ (hactive w hw)).trans (hgauge w)⟩

/-- Going on with a result that was come to blindly. -/
theorem Blind.bind {γ : Type} {f : World β σ → α × World β σ} {k : α → World β σ → γ × World β σ}
    (h : Blind s n f) (hk : ∀ a, Blind s n (k a)) : Blind s n fun w => k (f w).1 (f w).2 where
  limited w hw := by
    rw [h.limited w hw]
    exact (hk _).limited _ (h.isActive hw)
  gauge w hw := ((hk _).gauge _ (h.isActive hw)).trans (h.gauge w hw)

theorem Blind.congr {f g : World β σ → α × World β σ} (h : Blind s n f) (e : ∀ w, g w = f w) :
    Blind s n g := funext e ▸ h

theorem Blind.const (a : α) : Blind s n fun w : World β σ => (a, w) := ⟨fun _ _ => rfl, fun _ _ => rfl⟩

theorem Blind.map {γ : Type} {f : World β σ → α × World β σ} (h : Blind s n f) (g : α → γ) :
    Blind s n fun w => (g (f w).1, (f w).2) := h.bind fun a => .const (g a)

/-- Goes on from a value; an error stays as it is. -/
def andThen {γ : Type} (k : α → World β σ → Except Abort γ × World β σ) :
    Except Abort α × World β σ → Except Abort γ × World β σ
  | (.ok a, w) => k a w
  | (.error e, w) => (.error e, w)

theorem Blind.andThen {γ : Type} {f : World β σ → Except Abort α × World β σ}
    {k : α → World β σ → Except Abort γ × World β σ} (h : Blind s n f)
    (hk : ∀ a, Blind s n (k a)) : Blind s n fun w => World.andThen k (f w) := by
  have hnext : ∀ r, Blind s n fun w => World.andThen k (r, w) := fun r => by
    cases r with
    | ok a => exact hk a
    | error e => exact .const (Except.error e)
  exact h.bind hnext

/-! ### Actions -/

theorem perform_run (runner : Runner β σ) (s : Nat) (c : CoroutineRef)
    (next : Except Record Value → Action β σ α) (w : World β σ) :
    (Action.run s c next).perform runner w = World.andThen (fun r w => (next r).perform runner w)
      (splitScript (runner.run s c w).1, (runner.run s c w).2) := by
  cases e : splitScript (runner.run s c w).1 <;> simp only [Action.perform, World.andThen, e]

theorem perform_resume (runner : Runner β σ) (c : CoroutineRef) (input : Input)
    (next : Except Record Step → Action β σ α) (w : World β σ) :
    (Action.resume c input next).perform runner w = World.andThen
      (fun r w => (next r).perform runner w)
      (splitScript (runner.resume c input w).1, (runner.resume c input w).2) := by
  cases e : splitScript (runner.resume c input w).1 <;> simp only [Action.perform, World.andThen, e]

/-- Actions are blind if the runs and resumes that they ask for are. -/
theorem Blind.perform (runner : Runner β σ) (hrun : ∀ s' c, Blind s n (runner.run s' c))
    (hres : ∀ c input, Blind s n (runner.resume c input)) (a : Action β σ α) :
    Blind s n (a.perform runner) := by
  induction a with
  | done result => exact .const result
  | read next ih =>
      exact ⟨fun w hw => (ih w.shared).limited w hw, fun w hw => (ih w.shared).gauge w hw⟩
  | modify f next ih =>
      exact ih.after (g := fun w => { w with shared := f w.shared }) (fun _ => rfl) fun _ => rfl
  | identity next ih =>
      exact ⟨fun w hw => (ih _).limited w.identity.2 hw, fun w hw => (ih _).gauge w.identity.2 hw⟩
  | spawn name body locals next ih =>
      exact ⟨fun w hw => (ih _).limited (w.spawn name body locals).2 hw,
        fun w hw => (ih _).gauge (w.spawn name body locals).2 hw⟩
  | joinAll s' members re next ih =>
      refine ⟨fun w hw => ?_, fun w hw => ?_⟩
      · simp only [Action.perform, isActive_limited]
        split
        · exact (ih _).limited (w.newGroup members re).2 hw
        · exact (ih _).limited w hw
      · simp only [Action.perform]
        split
        · exact (ih _).gauge (w.newGroup members re).2 hw
        · exact (ih _).gauge w hw
  | run s' c next ih =>
      exact ((hrun s' c).map splitScript).andThen ih |>.congr fun w => perform_run ..
  | resume c input next ih =>
      exact ((hres c input).map splitScript).andThen ih |>.congr fun w => perform_resume ..
  | claim c task next ih =>
      exact Blind.bind (f := fun w : World β σ => w.claim c task) (k := fun r w => (next r).perform runner w)
        ⟨fun w _ => claim_limited .., fun w _ => gauge_claim ..⟩ ih
  | release c next ih => exact ih.after (g := (World.release · c)) (fun _ => rfl) fun _ => rfl

/-! ### Runs of other schedulers -/

theorem exceeded?_eq (w : World β σ) (s : Nat) : w.exceeded? s =
    match w.gauge s with
    | some (some k, some limit) => if Number.exceededBy k limit then some limit else none
    | _ => none := by
  simp only [exceeded?, gauge]
  rcases w.schedulers.get? s with _ | ⟨_, _ | _, _ | _⟩ <;> rfl

theorem gauge_limited_of_ne {s' : Nat} (h : s ≠ s') : (w.limited s n).gauge s' = w.gauge s' :=
  gauge_modifyScheduler_of_ne s' h

/-- The world with one more resume counted. -/
def counted (w : World β σ) (s : Nat) : World β σ :=
  w.modifyContext s fun ctx => { ctx with steps := ctx.steps + 1 }

/-- The task at hand is taken up: its row is marked. -/
def taken (w : World β σ) (t : Nat) : World β σ :=
  w.modifyTask t fun x => { x with state := .running, inbox := .start }

theorem takeUp_eq (w : World β σ) (s t : Nat) : w.takeUp s t =
    match (w.tasks.get? t).bind fun x => x.chain.head?.map (·, x.inbox) with
    | none => (.ok none, w)
    | some x =>
      match (w.counted s).exceeded? s with
      | some limit => (.error (.raise (.budget limit)), (w.counted s).emit s (.budgetExceeded limit))
      | none => (.ok (some x), (w.counted s).taken t) := by
  simp only [takeUp]
  rcases w.tasks.get? t with _ | ⟨_, _, _, _, _ | ⟨top, rest⟩, _, _⟩
  · rfl
  · rfl
  · simp only [Option.bind_some, List.head?_cons, Option.map_some]
    rfl

theorem gauge_takeUp_of_ne {s' : Nat} (h : s' ≠ s) (t : Nat) :
    (w.takeUp s' t).2.gauge s = w.gauge s := by
  rw [takeUp_eq]
  split
  · rfl
  · split <;> exact gauge_modifyScheduler_of_ne s h

theorem Blind.takeUp {s' : Nat} (h : s ≠ s') (t : Nat) :
    Blind s n fun w : World β σ => w.takeUp s' t := by
  refine ⟨fun w _ => ?_, fun w _ => gauge_takeUp_of_ne h.symm t⟩
  have hc : ((w.limited s n).counted s').exceeded? s' = (w.counted s').exceeded? s' := by
    rw [counted, modifyContext_limited, exceeded?_eq, exceeded?_eq, gauge_limited_of_ne h]
    rfl
  have hcounted : (w.limited s n).counted s' = (w.counted s').limited s n := modifyContext_limited ..
  rw [takeUp_eq, takeUp_eq, hc, tasks_limited, hcounted]
  split
  · rfl
  · split <;> rfl

theorem Blind.absorb (s' t : Nat) (top : CoroutineRef) (step : Step) :
    Blind s n fun w : World β σ => w.absorb s' t top step :=
  ⟨fun _ _ => absorb_limited .., fun _ _ => gauge_absorb ..⟩

section

variable {resume : CoroutineRef → Input → World β σ → Except Abort Step × World β σ}

/-- A turn takes a task up, resumes its coroutine and goes on from the step that it ended with. -/
theorem step_eq (w : World β σ) (s t : Nat) : w.step resume s t =
    andThen (fun x w => x.elim (.ok (), w) fun x =>
      andThen (fun step w => w.absorb s t x.1 step) (resume x.1 x.2 w)) (w.takeUp s t) := by
  simp only [World.step]
  rcases w.takeUp s t with ⟨_ | _ | ⟨top, input⟩, w⟩
  · rfl
  · rfl
  · simp only [andThen, Option.elim_some]
    rcases resume top input w with ⟨_ | _, _⟩ <;> rfl

/-- The loop makes a turn if a task is ready, and goes on. -/
theorem drain_succ (s fuel : Nat) (w : World β σ) : drain resume s (fuel + 1) w =
    (w.dequeue s).elim (.ok (), w) fun x =>
      andThen (fun _ w => drain resume s fuel w) (x.2.step resume s x.1) := by
  simp only [World.drain]
  rcases w.dequeue s with _ | ⟨t, w⟩
  · rfl
  · simp only [Option.elim_some]
    rcases w.step resume s t with ⟨_ | _, _⟩ <;> rfl

/-- A run that has started is closed, whatever its loop and its conclusion come to. -/
theorem runWith_eq (fuel s : Nat) (c : CoroutineRef) (w : World β σ) :
    w.runWith resume fuel s c = andThen (fun root w =>
      let ended := andThen (fun _ w => w.conclude s root c) (drain resume s fuel w)
      (ended.1, (ended.2.release c).deactivate s)) (w.start s c) := by
  simp only [World.runWith]
  rcases w.start s c with ⟨_ | root, w⟩
  · rfl
  · simp only [andThen]
    rcases drain resume s fuel w with ⟨_ | _, _⟩ <;> rfl

theorem Blind.step (hres : ∀ c input, Blind s n (resume c input)) {s' : Nat} (h : s ≠ s') (t : Nat) :
    Blind s n fun w : World β σ => w.step resume s' t := by
  refine ((Blind.takeUp h t).andThen fun x => ?_).congr fun w => step_eq w s' t
  cases x with
  | none => exact .const _
  | some x => exact (hres x.1 x.2).andThen fun step => .absorb ..

theorem Blind.drain (hres : ∀ c input, Blind s n (resume c input)) {s' : Nat} (h : s ≠ s')
    (fuel : Nat) : Blind s n (World.drain resume s' fuel) := by
  induction fuel with
  | zero => exact .const _
  | succ fuel ih =>
      have hstep : ∀ t, Blind s n fun w : World β σ =>
          World.andThen (fun _ w => World.drain resume s' fuel w) (w.step resume s' t) := fun t =>
        (Blind.step hres h t).andThen fun _ => ih
      refine ⟨fun w hw => ?_, fun w hw => ?_⟩
      · simp only [drain_succ, dequeue_limited]
        rcases hd : w.dequeue s' with _ | ⟨t, w'⟩
        · rfl
        · refine (hstep t).limited w' ?_
          rw [isActive_eq_gauge, gauge_dequeue s hd, ← isActive_eq_gauge]
          exact hw
      · simp only [drain_succ]
        rcases hd : w.dequeue s' with _ | ⟨t, w'⟩
        · rfl
        · refine ((hstep t).gauge w' ?_).trans (gauge_dequeue s hd)
          rw [isActive_eq_gauge, gauge_dequeue s hd, ← isActive_eq_gauge]
          exact hw

/-- A run that starts counts from zero; one that is refused changes no count. -/
theorem gauge_start (w : World β σ) (s s' : Nat) (c : CoroutineRef) : (w.start s' c).2.gauge s =
    if s' = s ∧ (w.start s' c).1.isOk then (w.gauge s).map fun x => (some 0, x.2)
    else w.gauge s := by
  have hclaim := gauge_claim (w := (w.newTask s' c 0 none).2) s c
    ((w.newTask s' c 0 none).2.taskId (w.newTask s' c 0 none).1)
  rw [gauge_newTask] at hclaim
  simp only [World.start]
  split
  · simp [Except.isOk, Except.toBool]
  · rcases e : (w.newTask s' c 0 none).2.claim c _ with ⟨_ | _, w'⟩ <;> rw [e] at hclaim
    · by_cases hs : s' = s
      · subst hs
        simp only [Except.isOk, Except.toBool, and_self, if_true, ← hclaim]
        simp only [gauge, activate, modifyScheduler, emit, Table.get?_modify_self]
        cases w'.schedulers.get? s' <;> rfl
      · rw [if_neg fun h => hs h.1]
        exact (gauge_modifyScheduler_of_ne s hs).trans hclaim
    · rw [if_neg (by simp [Except.isOk, Except.toBool])]
      exact hclaim

theorem Blind.start {s' : Nat} (h : s ≠ s') (c : CoroutineRef) :
    Blind s n fun w : World β σ => w.start s' c :=
  ⟨fun _ _ => start_limited .., fun w _ => (gauge_start w s s' c).trans (if_neg fun e => h e.1.symm)⟩

/-- **Another run is blind**: of the same scheduler it is refused, and another scheduler has a limit and a
count of its own. -/
theorem Blind.runWith (hres : ∀ c input, Blind s n (resume c input)) (fuel s' : Nat)
    (c : CoroutineRef) : Blind s n (World.runWith resume fuel s' c) := by
  by_cases h : s = s'
  · subst h
    refine ⟨fun w hw => ?_, fun w hw => ?_⟩ <;>
      simp [World.runWith, World.start, hw]
  · have hconclude : ∀ root, Blind s n fun w : World β σ => w.conclude s' root c := fun root => by
      refine ⟨fun w _ => conclude_limited .., fun w _ => ?_⟩
      unfold conclude
      split <;> rfl
    have hclose : ∀ (r : Except Abort Value), Blind s n fun w : World β σ =>
        (r, (w.release c).deactivate s') := fun r =>
      ⟨fun w _ => by simp, fun w _ => gauge_modifyScheduler_of_ne s (Ne.symm h)⟩
    have hrun : ∀ root, Blind s n fun w : World β σ =>
        ((World.andThen (fun _ w => w.conclude s' root c) (World.drain resume s' fuel w)).1,
          ((World.andThen (fun _ w => w.conclude s' root c)
            (World.drain resume s' fuel w)).2.release c).deactivate s') := fun root =>
      ((Blind.drain hres h fuel).andThen fun _ => hconclude root).bind hclose
    exact ((Blind.start h c).andThen hrun).congr fun w => runWith_eq fuel s' c w

end

/-- A resume lets the coroutine take up the input, carries out its body and lets it leave off. -/
theorem resume_eq (bodies : Bodies β σ) (fuel : Nat) (c : CoroutineRef) (input : Input)
    (w : World β σ) : World.resume bodies (fuel + 1) c input w =
      andThen (fun p w =>
        let ended := p.2.perform (runner bodies fuel) w
        ended.2.leave c p.1 ended.1) (w.enter bodies c input) := by
  rw [resume_succ, resumeWith]
  rcases w.enter bodies c input with ⟨_ | _, _⟩ <;> rfl

/-- **Resumes are blind**, by induction on how deep runs may nest. -/
theorem Blind.resume (bodies : Bodies β σ) (fuel : Nat) (c : CoroutineRef) (input : Input) :
    Blind s n (World.resume bodies fuel c input) := by
  induction fuel generalizing c input with
  | zero => exact .const _
  | succ fuel ih =>
      have henter : Blind s n fun w : World β σ => w.enter bodies c input := by
        refine ⟨fun w _ => ?_, fun w _ => ?_⟩ <;> simp only [enter, handles_limited] <;>
          split <;> first | rfl | (split <;> rfl)
      have hleave : ∀ frame result, Blind s n fun w : World β σ => w.leave c frame result := by
        intro frame result
        refine ⟨fun w _ => ?_, fun w _ => ?_⟩ <;> unfold leave <;> split <;> rfl
      have hperform := Blind.perform (s := s) (n := n) (runner bodies fuel)
        (α := Frame × Step) (fun s' c => Blind.runWith ih fuel s' c) ih
      exact (henter.andThen fun p => (hperform p.2).bind (hleave p.1)).congr fun w =>
        resume_eq bodies fuel c input w

end World

end Coroutines
