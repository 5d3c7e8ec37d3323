import Coroutines.Proofs.Budget.Cut
import Coroutines.Proofs.Invariants
import Coroutines.Proofs.Moments

/-!
# Which schedulers are active

Whatever is done, however it ends, leaves the counts and limits of all schedulers as they were: a scheduler
is active only while a run on it is in progress (`World.Moment.gauge`, `World.Visits.isActive`).
-/

namespace Coroutines

namespace World

variable {β σ α γ : Type} {w w' : World β σ} {s : Nat}

/-! ### Counts after a run -/

theorem ambient_gauge (s : Nat) (x : Option (Option Nat × Option Number)) :
    Ambient fun w : World β σ => w.gauge s = x :=
  fun w w' _ hs _ _ hw => by simpa only [gauge, hs] using hw

/-- While a run is in progress, its scheduler keeps its limit. -/
def InProgress (s : Nat) (limit : Option Number) (w : World β σ) : Prop :=
  ∃ k, w.gauge s = some (some k, limit)

theorem InProgress.isActive {limit : Option Number} (h : w.InProgress s limit) :
    w.isActive s = true := by
  obtain ⟨k, hk⟩ := h
  rw [isActive_eq_gauge, hk]
  rfl

theorem gauge_takeUp (w : World β σ) (s t : Nat) : (w.takeUp s t).2.gauge s = w.gauge s ∨
    (w.takeUp s t).2.gauge s = (w.gauge s).map fun x => (x.1.map (· + 1), x.2) := by
  rw [takeUp_eq]
  split
  · exact .inl rfl
  · split <;> exact .inr (gauge_counted w s)

theorem gauge_conclude (w : World β σ) (s s' root : Nat) (c : CoroutineRef) :
    (w.conclude s' root c).2.gauge s = w.gauge s := by
  unfold conclude
  split <;> rfl

theorem gauge_deactivate (w : World β σ) (s : Nat) :
    (w.deactivate s).gauge s = (w.gauge s).map fun x => (none, x.2) := by
  simp only [gauge, deactivate, modifyScheduler, Table.get?_modify_self]
  cases w.schedulers.get? s <;> rfl

theorem gauge_deactivate_of_ne {s s' : Nat} (h : s' ≠ s) (w : World β σ) :
    (w.deactivate s').gauge s = w.gauge s := gauge_modifyScheduler_of_ne s h

section

variable {bodies : Bodies β σ} {fuel : Nat}

theorem InProgress.takeUp {limit : Option Number} (h : w.InProgress s limit) (t : Nat) :
    (w.takeUp s t).2.InProgress s limit := by
  obtain ⟨k, hk⟩ := h
  rcases gauge_takeUp w s t with e | e <;> rw [hk] at e
  · exact ⟨k, e⟩
  · exact ⟨k + 1, e⟩

/-- A turn of its own run leaves a scheduler in progress. -/
theorem InProgress.step {limit : Option Number} (h : w.InProgress s limit) (t : Nat) :
    (w.step (World.resume bodies fuel) s t).2.InProgress s limit := by
  have htake := h.takeUp t
  rw [step_eq]
  rcases hu : w.takeUp s t with ⟨e | - | ⟨top, input⟩, w₁⟩ <;> rw [hu] at htake
  · exact htake
  · exact htake
  · have hres : (w₁.resume bodies fuel top input).2.InProgress s limit := by
      have hblind := (Blind.resume (n := default) bodies fuel top input).gauge w₁ htake.isActive
      rwa [InProgress, hblind]
    simp only [World.andThen, Option.elim_some]
    rcases hr : w₁.resume bodies fuel top input with ⟨e | step, w₂⟩ <;> rw [hr] at hres
    · exact hres
    · obtain ⟨k, hk⟩ := hres
      exact ⟨k, (gauge_absorb ..).trans hk⟩

/-- A run starts on a scheduler that is idle. -/
theorem idle_of_start {c : CoroutineRef} {root : Nat} (hs : w.start s c = (.ok root, w')) :
    ∃ y, w.gauge s = some (none, y) := by
  have hidle : w.isActive s = false := by
    cases h : w.isActive s with
    | false => rfl
    | true => simp [World.start, h] at hs
  rw [isActive_eq_gauge] at hidle
  rcases hg : w.gauge s with - | ⟨- | k, y⟩ <;> rw [hg] at hidle
  · cases hidle
  · exact ⟨y, rfl⟩
  · cases hidle

theorem inProgress_afterTurns {limit : Option Number} {n : Nat} (h : w.InProgress s limit)
    (hn : afterTurns (World.resume bodies fuel) s n w = some w') : w'.InProgress s limit := by
  induction n generalizing w with
  | zero =>
      cases hn
      exact h
  | succ n ih =>
      obtain ⟨⟨t, w₁⟩, hd, hn⟩ := Option.bind_eq_some_iff.mp hn
      obtain ⟨k, hk⟩ := h
      have hstep : (w₁.step (World.resume bodies fuel) s t).2.InProgress s limit :=
        InProgress.step ⟨k, (gauge_dequeue s hd).trans hk⟩ t
      rcases ht : w₁.step (World.resume bodies fuel) s t with ⟨e | ⟨⟩, w₂⟩ <;> simp only [ht] at hn hstep
      · cases hn
      · exact ih hstep hn

/-- A run ends with its scheduler as it was. -/
theorem gauge_run_self (s : Nat) (c : CoroutineRef) (w : World β σ) :
    (w.run bodies fuel s c).2.gauge s = w.gauge s := by
  have hstart := gauge_start w s s c
  rw [World.run, runWith_eq]
  rcases hs : w.start s c with ⟨e | root, w₁⟩ <;> rw [hs] at hstart
  · exact hstart.trans (if_neg (by simp [Except.isOk, Except.toBool]))
  · obtain ⟨y, hy⟩ := idle_of_start hs
    rw [if_pos ⟨rfl, rfl⟩, hy] at hstart
    have hdrain : Keeping (InProgress s y) (World.drain (World.resume bodies fuel) s fuel) :=
      Keeping.drain (fun _ _ t h hd =>
        InProgress.step (h.imp fun _ hk => (gauge_dequeue s hd).trans hk) t) fuel
    obtain ⟨k, hk⟩ := hdrain ⟨0, hstart⟩
    simp only [World.andThen, gauge_deactivate, gauge_release]
    rcases hr : World.drain (World.resume bodies fuel) s fuel w₁ with ⟨e | ⟨⟩, w₂⟩ <;> rw [hr] at hk
    · simp only [hk, hy, Option.map_some]
    · simp only [gauge_conclude, hk, hy, Option.map_some]

/-- The turns of other schedulers keep what the resumes in them keep. -/
theorem gauge_step_of_ne {s s' : Nat} (h : s' ≠ s) {x : Option (Option Nat × Option Number)}
    (hres : ∀ c input, Keeping (fun w : World β σ => w.gauge s = x) (World.resume bodies fuel c input))
    (t : Nat) (hw : w.gauge s = x) : (w.step (World.resume bodies fuel) s' t).2.gauge s = x := by
  have htake := (gauge_takeUp_of_ne h t).trans hw
  rw [step_eq]
  rcases hu : w.takeUp s' t with ⟨e | - | ⟨top, input⟩, w₁⟩ <;> rw [hu] at htake
  · exact htake
  · exact htake
  · have hstep := hres top input htake
    simp only [World.andThen, Option.elim_some]
    rcases hr : w₁.resume bodies fuel top input with ⟨e | step, w₂⟩ <;> rw [hr] at hstep
    · exact hstep
    · exact (gauge_absorb ..).trans hstep

/-- Runs of other schedulers do so as well. -/
theorem gauge_run_of_ne {s s' : Nat} (h : s' ≠ s) {x : Option (Option Nat × Option Number)}
    (hres : ∀ c input, Keeping (fun w : World β σ => w.gauge s = x) (World.resume bodies fuel c input))
    (c : CoroutineRef) : Keeping (fun w : World β σ => w.gauge s = x) (World.run bodies fuel s' c) := by
  intro w hw
  have hstart : (w.start s' c).2.gauge s = x :=
    ((gauge_start w s s' c).trans (if_neg fun e => h e.1)).trans hw
  rw [World.run, runWith_eq]
  rcases hs : w.start s' c with ⟨e | root, w₁⟩ <;> rw [hs] at hstart
  · exact hstart
  · have hdrain := Keeping.drain (I := fun w : World β σ => w.gauge s = x)
      (fun _ _ t hw hd => gauge_step_of_ne h hres t ((gauge_dequeue s hd).trans hw)) fuel hstart
    simp only [World.andThen, gauge_deactivate_of_ne h, gauge_release]
    rcases hr : World.drain (World.resume bodies fuel) s' fuel w₁ with ⟨e | ⟨⟩, w₂⟩ <;> rw [hr] at hdrain
    · exact hdrain
    · exact (gauge_conclude ..).trans hdrain

/-- A run of one scheduler leaves the others alone as well, if the resumes in it do. -/
theorem keeping_gauge_run {s : Nat} {x : Option (Option Nat × Option Number)}
    (hres : ∀ c input, Keeping (fun w : World β σ => w.gauge s = x) (World.resume bodies fuel c input))
    (s' : Nat) (c : CoroutineRef) :
    Keeping (fun w : World β σ => w.gauge s = x) (World.run bodies fuel s' c) := by
  by_cases h : s' = s
  · subst h
    exact fun w hw => (gauge_run_self s' c w).trans hw
  · exact gauge_run_of_ne h hres c

/-- **What is done leaves the counts and limits of all schedulers alone**, by induction on how deep runs
may nest. -/
theorem keeping_gauge (s : Nat) (x : Option (Option Nat × Option Number)) (c : CoroutineRef)
    (input : Input) : Keeping (fun w : World β σ => w.gauge s = x) (World.resume bodies fuel c input) :=
  Keeping.resume (ambient_gauge s x) (fun _ hres => keeping_gauge_run hres) fuel c input

theorem keeping_gauge_perform (s : Nat) (x : Option (Option Nat × Option Number)) (a : Action β σ α) :
    Keeping (fun w : World β σ => w.gauge s = x) (a.perform (runner bodies fuel)) :=
  Keeping.perform (ambient_gauge s x) (keeping_gauge_run (keeping_gauge s x)) (keeping_gauge s x) a

end

/-! ### Idle schedulers -/

/-- Whatever a host does leaves the counts and limits of all schedulers alone. -/
theorem History.gauge (h : History w w') (s : Nat) : w'.gauge s = w.gauge s := by
  induction h with
  | refl => rfl
  | more _ bodies fuel a ih => exact keeping_gauge_perform s _ a ih

/-- The turns of a run leave other schedulers alone. -/
theorem gauge_afterTurns {bodies : Bodies β σ} {fuel s s' n : Nat} (hs : s' ≠ s)
    (h : afterTurns (World.resume bodies fuel) s' n w = some w') : w'.gauge s = w.gauge s := by
  induction n generalizing w with
  | zero =>
      cases h
      rfl
  | succ n ih =>
      obtain ⟨⟨t, w₁⟩, hd, h⟩ := Option.bind_eq_some_iff.mp h
      have hstep : (w₁.step (World.resume bodies fuel) s' t).2.gauge s = w.gauge s :=
        gauge_step_of_ne hs (keeping_gauge s _) t (gauge_dequeue s hd)
      rcases ht : w₁.step (World.resume bodies fuel) s' t with ⟨e | ⟨⟩, w₂⟩ <;> simp only [ht] at h hstep
      · cases h
      · exact (ih h).trans hstep

/-- A run leaves other schedulers alone until it resumes a coroutine. -/
theorem TakesUp.gauge {bodies : Bodies β σ} {depth s' t : Nat} {rest : Rest β σ γ α}
    {loop : Rest β σ γ Unit} {a : Action β σ α} {top : CoroutineRef} {input : Input}
    (h : TakesUp bodies depth rest a w loop s' t top input w') (hne : s' ≠ s) :
    w'.gauge s = w.gauge s := by
  obtain ⟨hstart, hturns, hd, ht, -⟩ := h
  next c _ w₁ w₂ w₃ =>
  have h₁ := (gauge_start w s s' c).trans (if_neg fun e => hne e.1)
  have h₄ := gauge_takeUp_of_ne (w := w₃) hne t
  rw [hstart] at h₁
  rw [ht] at h₄
  exact h₄.trans ((gauge_dequeue s hd).trans ((gauge_afterTurns hne hturns).trans h₁))

theorem TakesUp.schedulers {bodies : Bodies β σ} {depth s' t : Nat} {rest : Rest β σ γ α}
    {loop : Rest β σ γ Unit} {a : Action β σ α} {top : CoroutineRef} {input : Input}
    (h : TakesUp bodies depth rest a w loop s' t top input w') :
    loop.schedulers = s' :: rest.schedulers := by
  cases h
  rfl

/-- The scheduler of a run was idle, and is active while the run goes on. -/
theorem TakesUp.inProgress {bodies : Bodies β σ} {depth t : Nat} {rest : Rest β σ γ α}
    {loop : Rest β σ γ Unit} {a : Action β σ α} {top : CoroutineRef} {input : Input}
    (h : TakesUp bodies depth rest a w loop s t top input w') :
    w.isActive s = false ∧ ∃ limit, w'.InProgress s limit := by
  obtain ⟨hstart, hturns, hd, ht, -⟩ := h
  next c _ w₁ w₂ w₃ =>
  obtain ⟨y, hy⟩ := idle_of_start hstart
  have h₁ := gauge_start w s s c
  rw [hstart, if_pos ⟨rfl, rfl⟩, hy] at h₁
  obtain ⟨k, hk⟩ := inProgress_afterTurns ⟨0, h₁⟩ hturns
  have h₄ := InProgress.takeUp ⟨k, (gauge_dequeue s hd).trans hk⟩ t
  rw [ht] at h₄
  exact ⟨by rw [isActive_eq_gauge, hy]; rfl, y, h₄⟩

theorem gauge_enter (w : World β σ) (bodies : Bodies β σ) (c : CoroutineRef) (input : Input) (s : Nat) :
    (w.enter bodies c input).2.gauge s = w.gauge s :=
  Keeping.enter (ambient_gauge s (w.gauge s)) bodies c input (w := w) rfl

/-- A moment leaves the schedulers alone that have no run in progress. -/
theorem Visits.gauge {bodies : Bodies β σ} {a : Action β σ γ} {fuel : Nat} {rest : Rest β σ γ α}
    {a' : Action β σ α} {depth : Nat} (h : Visits bodies a fuel w rest a' depth w')
    (hs : s ∉ rest.schedulers) : w'.gauge s = w.gauge s := by
  induction h with
  | refl => rfl
  | request _ ha ih =>
      exact Keeping.advance (ambient_gauge s _) (keeping_gauge_run (keeping_gauge s _))
        (keeping_gauge s _) ha (ih hs)
  | @turn _ rest _ _ _ _ s' _ top input _ _ w₂ _ _ ht he ih =>
      have hentered := gauge_enter w₂ bodies top input s
      rw [he] at hentered
      have hloop : s ∉ s' :: rest.schedulers := ht.schedulers ▸ hs
      have hrest := not_or.mp fun h => hloop (List.mem_cons.mpr h)
      exact hentered.trans ((ht.gauge (Ne.symm hrest.1)).trans (ih hrest.2))
  | @resume _ _ _ _ c input _ _ w₁ _ _ he ih =>
      have hentered := gauge_enter w₁ bodies c input s
      rw [he] at hentered
      exact hentered.trans (ih hs)

/-- **The schedulers of the runs in progress are active.** -/
theorem Visits.isActive {bodies : Bodies β σ} {a : Action β σ γ} {fuel : Nat} {rest : Rest β σ γ α}
    {a' : Action β σ α} {depth : Nat} (h : Visits bodies a fuel w rest a' depth w')
    (hs : s ∈ rest.schedulers) : w'.isActive s = true := by
  rw [isActive_eq_gauge]
  induction h with
  | refl => cases hs
  | @request _ _ _ _ _ w₁ w₂ _ ha ih =>
      have hgauge := Keeping.advance (ambient_gauge s (w₁.gauge s)) (keeping_gauge_run (keeping_gauge s _))
        (keeping_gauge s _) ha rfl
      rw [hgauge]
      exact ih hs
  | @turn _ _ _ _ _ _ s' _ top input _ w₁ w₂ _ _ ht he ih =>
      have hentered := gauge_enter w₂ bodies top input s
      rw [he] at hentered
      rw [hentered, ← isActive_eq_gauge]
      obtain ⟨hidle, limit, hprogress⟩ := ht.inProgress
      by_cases hne : s' = s
      · exact hne ▸ hprogress.isActive
      · have hs := (List.mem_cons.mp (ht.schedulers ▸ hs)).resolve_left (Ne.symm hne)
        rw [isActive_eq_gauge, ht.gauge hne]
        exact ih hs
  | @resume _ _ _ _ c input _ _ w₁ _ _ he ih =>
      have hentered := gauge_enter w₁ bodies c input s
      rw [he] at hentered
      rw [hentered]
      exact ih hs

/-- **At every moment a scheduler none of whose runs is in progress is idle**, with the limit that it was
made with. -/
theorem Moment.gauge {limits : List (Option Number)} {shared : σ} {bodies : Bodies β σ}
    {rest : Rest β σ γ α} {a : Action β σ α} {depth : Nat}
    (h : Moment limits shared bodies rest a depth w) (hs : s ∉ rest.schedulers) :
    w.gauge s = (initial limits shared : World β σ).gauge s := by
  obtain ⟨a₀, fuel, w₀, hh, hv⟩ := h
  exact (hv.gauge hs).trans (hh.gauge s)

theorem Moment.isActive {limits : List (Option Number)} {shared : σ} {bodies : Bodies β σ}
    {rest : Rest β σ γ α} {a : Action β σ α} {depth : Nat}
    (h : Moment limits shared bodies rest a depth w) (hs : s ∈ rest.schedulers) :
    w.isActive s = true := by
  obtain ⟨a₀, fuel, w₀, hh, hv⟩ := h
  exact hv.isActive hs

end World

end Coroutines
