import Coroutines.Proofs.Ownership.Runs

/-!
# Orderly bodies in a sound world

The turns of a run, the run as a whole and the actions of bodies keep a world sound, by induction
on how deep runs may nest.  A run whose queue is empty has ended every task, since a task that
waits has a younger one to wait for.
-/

namespace Coroutines

namespace World

variable {β σ : Type} {w w' : World β σ} {l l' : Standing} {base base' : Nat → Start}

/-- An action or a run ended with a value or an exception of the script in a world that is sound for
a standing, or it reached the bound of the host. -/
def Keeps {α : Type} (l : Standing) (base : Nat → Start) (result : Except Abort α × World β σ) :
    Prop :=
  result.1 = .error .outOfFuel ∨
    (∃ r, splitScript result.1 = .ok r) ∧ result.2.Sound l base none

/-- Runs keep sound worlds sound. -/
def RunsSound (run : Nat → CoroutineRef → World β σ → Except Abort Value × World β σ) : Prop :=
  ∀ {w : World β σ} {l : Standing} {base : Nat → Start} (s : Nat) (c : CoroutineRef),
    w.Sound l base none → Keeps l base (run s c w)

/-- A coroutine that takes an input is resumed in a world that is sound while it runs, and leaves a
sound world when it ends the resume with a step. -/
def ResumesSound (resume : CoroutineRef → Input → World β σ → Except Abort Step × World β σ) : Prop :=
  ∀ {w : World β σ} {l : Standing} {base : Nat → Start} {c : CoroutineRef} {input : Input}
    {y : Handle β}, w.handles.get? c.id = some y → y.refusal? input = none →
    (∀ forgets, (w.modifyHandle c (·.entered forgets)).Sound l base none) →
    (resume c input w).1 = .error .outOfFuel ∨ ∃ frame step, ∃ w' : World β σ, w'.Sound l base none ∧
      resume c input w = (.ok step, w'.modifyHandle c (·.left frame step))

/-! ### Actions -/

/-- A request of an orderly action leaves a sound world sound. -/
theorem Sound.advance {α : Type} {runner : Runner β σ} {a a' : Action β σ α}
    (h : w.Sound l base none) (hrun : RunsSound runner.run) (ha : a.Orderly)
    (he : a.advance runner w = some (a', w')) : w'.Sound l base none := by
  cases a with
  | done result => cases he
  | read next =>
      cases he
      exact h
  | modify f next =>
      cases he
      exact h.of_tables rfl rfl rfl fun _ => rfl
  | identity next =>
      cases he
      exact h.of_tables rfl rfl rfl fun _ => rfl
  | spawn name body locals next =>
      cases he
      exact h.spawn name body locals
  | joinAll s members re next =>
      simp only [Action.advance] at he
      split at he
      · cases he
        exact h.newGroup members re
      · cases he
        exact h
  | run s c next =>
      simp only [Action.advance] at he
      split at he
      · next e =>
          cases he
          rcases hrun s c h with hk | ⟨-, hk⟩
          · rw [hk] at e
            cases e
          · exact hk
      · cases he
  | resume c input next => exact ha.elim
  | claim c task next => exact ha.elim
  | release c next => exact ha.elim

/-- An orderly action leaves a sound world sound. -/
theorem Sound.perform {α : Type} {runner : Runner β σ} {a : Action β σ α}
    (h : w.Sound l base none) (hrun : RunsSound runner.run) (ha : a.Orderly) :
    Keeps l base (a.perform runner w) := by
  induction a generalizing w with
  | done result =>
      cases result with
      | ok a => exact .inr ⟨⟨_, rfl⟩, h⟩
      | error e =>
          cases e with
          | script r => exact .inr ⟨⟨_, rfl⟩, h⟩
          | outOfFuel => exact .inl rfl
          | host message => exact ha.elim
          | tooLarge => exact ha.elim
          | endless count => exact ha.elim
  | read next ih => exact ih _ h (ha _)
  | modify f next ih => exact ih (h.advance (a := .modify f next) hrun ha rfl) ha
  | identity next ih => exact ih _ (h.advance (a := .identity next) hrun ha rfl) (ha _)
  | spawn name body locals next ih =>
      exact ih _ (h.advance (a := .spawn name body locals next) hrun ha rfl) (ha _)
  | joinAll s members re next ih =>
      simp only [Action.perform]
      split
      · exact ih _ (h.newGroup members re) (ha _)
      · exact ih _ h (ha _)
  | run s c next ih =>
      simp only [Action.perform]
      rcases hrun s c h with hk | ⟨⟨r, hr⟩, hk⟩
      · refine .inl ?_
        simp only [hk, splitScript]
      · simp only [hr]
        exact ih _ hk (ha _)
  | resume c input next ih => exact ha.elim
  | claim c task next ih => exact ha.elim
  | release c next ih => exact ha.elim

/-! ### Turns -/

/-- A turn in a sound world leaves a sound one, unless it ends the run: at the run's limit, with
the tables as they were, or at the bound of the host. -/
theorem Sound.turn {resume : CoroutineRef → Input → World β σ → Except Abort Step × World β σ}
    {s t : Nat} (h : w.Sound l base none) (hcalm : l.Calm s) (hres : ResumesSound resume)
    (hd : w.dequeue s = some (t, w')) :
    (w'.step resume s t).1 = .error .outOfFuel ∨
    (∃ limit w'', w'.step resume s t = (.error (.raise (.budget limit)), w'') ∧
      w''.handles = w.handles ∧ w''.groups = w.groups ∧ w''.tasks = w.tasks ∧
      ∀ s', s' ≠ s → w''.context? s' = w.context? s') ∨
    ∃ c step w'' l', w'.step resume s t = (.ok (), w'') ∧ w'.resumed resume s t = [(c, step)] ∧
      w''.Sound l' base none ∧ l'.After l s ∧ l'.Calm s := by
  obtain ⟨x, top, rest, y, hx, hc, ht, hy, hrefuse, ⟨limit, w₁, he, htables⟩ | ⟨w₁, he, hhandles, hsound⟩⟩ :=
    h.takeUp hcalm hd
  · refine .inr (.inl ⟨limit, w₁, ?_, htables⟩)
    simp only [World.step, he]
  · rcases hres (hhandles ▸ hy) hrefuse hsound with hr | ⟨frame, step, w₂, hs, hr⟩
    · refine .inl ?_
      simp only [World.step, he]
      split
      · next e =>
          rw [e] at hr
          cases hr
          rfl
      · next e =>
          rw [e] at hr
          cases hr
    · refine .inr (.inr ?_)
      obtain ⟨w₃, l', ha, hs', hl, hcalm'⟩ := hs.absorb (Standing.set_self ..) frame step
      have hmove : ∀ s' q, l t = some (s', q) → s' = s := fun s' q e => by
        rw [ht] at e
        cases e
        rfl
      refine ⟨top, step, w₃, l', ?_, ?_, hs', ⟨?_, fun u p hu => ?_, fun u c e => ?_⟩, hcalm'⟩
      · simp only [World.step, he, hr, ha]
      · simp only [resumed, he, hr]
      · exact hl.outside.trans (Standing.without_set _ hmove)
      · obtain ⟨p', hp'⟩ := Standing.exists_set (.current top) ht hu
        exact hl.stays u p' hp'
      · exact absurd e (hcalm' u c)

/-- **Between two turns with an empty queue every task of the run has ended.** -/
theorem Sound.ended_of_idle {s : Nat} {ctx : RunContext} (h : w.Sound l base none)
    (hcalm : l.Calm s) (hc : w.context? s = some ctx) (hq : ctx.ready = []) {t : Nat} {p : Place}
    (ht : l t = some (s, p)) : p = .ended := by
  -- by induction from the youngest task, since the members of a group are younger than who waits
  induction hn : w.tasks.size - t using Nat.strong_induction_on generalizing t p with
  | _ n ih =>
      subst hn
      cases p with
      | current c => exact absurd ht (hcalm t c)
      | ready =>
          have hmem := (h.queued.ready hc t).mpr ht
          rw [hq] at hmem
          cases hmem
      | ended => rfl
      | blocked g =>
          obtain ⟨x, hx, ha, hw⟩ := h.grouped.waits ht
          obtain ⟨u, hu, hn⟩ := hw nofun
          obtain ⟨q, hq'⟩ := h.grouped.together hx ha ht hu
          obtain ⟨y, ref, hy, hg, rfl⟩ := h.grouped.member hx hu
          obtain ⟨x', t', q', hx', -, ha', hlt, ht'⟩ := h.grouped.parent hq' hy hg
          rw [hx] at hx'
          cases hx'
          rw [ha] at ha'
          cases ha'
          have hsize := h.lt_size (t := u) (by simp [hq'])
          obtain rfl := ih (w.tasks.size - u) (by omega) hq' rfl
          exact absurd hq' hn

/-- The root of a run between two turns has an outcome once the queue is empty. -/
theorem Sound.root_outcome {s : Nat} (h : w.Sound l base none) (hcalm : l.Calm s)
    (hs : ∃ ctx, w.context? s = some ctx) (hd : w.dequeue s = none) :
    (w.taskOutcome? (base s).root).isSome = true := by
  obtain ⟨ctx, hc⟩ := hs
  have hq : ctx.ready = [] := by
    simp only [dequeue, hc] at hd
    split at hd
    · next e => exact e
    · cases hd
  obtain ⟨p, hp⟩ := h.queued.root hc
  obtain rfl := h.ended_of_idle hcalm hc hq hp
  obtain ⟨x, hx, hh⟩ := h.chained.holds hp
  rw [← (h.chained.base hc).1, taskOutcome?_of_get? hx, hh.outcome]

/-! ### Whole runs -/

/-- How the loop of a run ends: with an empty queue, at the run's limit, or at the bound of the
host. -/
theorem Sound.drain {resume : CoroutineRef → Input → World β σ → Except Abort Step × World β σ}
    {s : Nat} (fuel : Nat) (h : w.Sound l base none) (hcalm : l.Calm s)
    (hs : ∃ ctx, w.context? s = some ctx) (hres : ResumesSound resume) :
    (World.drain resume s fuel w).1 = .error .outOfFuel ∨
    ∃ w₁ l', w₁.Sound l' base none ∧ l'.without s = l.without s ∧ (∃ ctx, w₁.context? s = some ctx) ∧
      (World.drain resume s fuel w = (.ok (), w₁) ∧
          (w₁.taskOutcome? (base s).root).isSome = true ∨
        ∃ limit w₂, World.drain resume s fuel w = (.error (.raise (.budget limit)), w₂) ∧
          w₂.handles = w₁.handles ∧ w₂.groups = w₁.groups ∧ w₂.tasks = w₁.tasks ∧
          ∀ s', s' ≠ s → w₂.context? s' = w₁.context? s') := by
  induction fuel generalizing w l with
  | zero => exact .inl rfl
  | succ fuel ih =>
      cases hd : w.dequeue s with
      | none =>
          refine .inr ⟨w, l, h, rfl, hs, .inl ⟨?_, h.root_outcome hcalm hs hd⟩⟩
          simp only [World.drain, hd]
      | some x =>
          obtain ⟨t, w₀⟩ := x
          rcases h.turn hcalm hres hd with hf | ⟨limit, w₂, he, htables⟩ |
            ⟨c, step, w₁, l₁, he, -, hs₁, hafter, hcalm₁⟩
          · refine .inl ?_
            simp only [World.drain, hd]
            split
            · next e =>
                rw [e] at hf
                cases hf
            · next e =>
                rw [e] at hf
                exact hf
          · refine .inr ⟨w, l, h, rfl, hs, .inr ⟨limit, w₂, ?_, htables⟩⟩
            simp only [World.drain, hd, he]
          · have hnext : World.drain resume s (fuel + 1) w = World.drain resume s fuel w₁ := by
              simp only [World.drain, hd, he]
            obtain ⟨ctx, hc⟩ := hs
            obtain ⟨p, hp⟩ := h.queued.root hc
            obtain ⟨p', hp'⟩ := hafter.stays _ p hp
            rw [hnext]
            rcases ih hs₁ hcalm₁ (hs₁.queued.active hp') with hf | ⟨w₂, l₂, hs₂, hout, hrest⟩
            · exact .inl hf
            · exact .inr ⟨w₂, l₂, hs₂, hout.trans hafter.outside, hrest⟩

/-- A run leaves a sound world sound, as its scheduler is idle afterwards. -/
theorem ResumesSound.runWith
    {resume : CoroutineRef → Input → World β σ → Except Abort Step × World β σ}
    (hres : ResumesSound resume) (fuel : Nat) :
    RunsSound fun s c (w : World β σ) => w.runWith resume fuel s c := by
  intro w l base s c h
  rcases h.start s c with ⟨f, w', he, hs⟩ | ⟨w', he, hidle, hs⟩
  · refine .inr ?_
    simp only [World.runWith, he]
    exact ⟨⟨_, rfl⟩, hs⟩
  · have hcalm := Standing.calm_set_ready hidle w.tasks.size
    have hwithout := Standing.without_set_ready hidle h.size_eq_none
    have hbase : ∀ s', s' ≠ s → base s' = Function.update base s ⟨w.tasks.size, c⟩ s' :=
      fun s' e => (Function.update_of_ne e ..).symm
    have hself : Function.update base s (Start.mk w.tasks.size c) s = ⟨w.tasks.size, c⟩ :=
      Function.update_self ..
    rcases hs.drain fuel hcalm (hs.queued.active (Standing.set_self ..)) hres with
      hf | ⟨w₁, l₁, hs₁, hout, hc₁, ⟨hd, ho⟩ | ⟨limit, w₂, hd, hhandles, hgroups, htasks, hctx⟩⟩
    · refine .inl ?_
      simp only [World.runWith, he]
      split
      · next e =>
          rw [e] at hf
          cases hf
      · next e =>
          rw [e] at hf
          exact congrArg Except.error (Except.error.inj hf)
    · rw [hself] at ho
      obtain ⟨outcome, ho⟩ := Option.isSome_iff_exists.mp ho
      have hover := hs₁.over (w₁.emit s (.runEnd outcome.isOk
        (((w₁.context? s).map RunContext.steps).getD 0))) base hc₁ rfl rfl rfl (fun _ _ => rfl) hbase
      rw [hself, hout, hwithout] at hover
      refine .inr ⟨?_, ?_⟩
      · simp only [World.runWith, he, hd, conclude, ho]
        cases outcome <;> exact ⟨_, rfl⟩
      · simp only [World.runWith, he, hd, conclude, ho]
        exact hover
    · have hover := hs₁.over w₂ base hc₁ hhandles hgroups htasks hctx hbase
      rw [hself, hout, hwithout] at hover
      refine .inr ⟨?_, ?_⟩
      · simp only [World.runWith, he, hd]
        exact ⟨_, rfl⟩
      · simp only [World.runWith, he, hd]
        exact hover

/-- **Resumes and runs of orderly bodies keep sound worlds sound**, by induction on how deep runs
may nest. -/
theorem resumesSound {bodies : Bodies β σ} (hb : bodies.Orderly) (fuel : Nat) :
    ResumesSound (resume bodies fuel) := by
  induction fuel with
  | zero => exact fun _ _ _ => .inl rfl
  | succ fuel ih =>
      intro w l base c input y hy hrefuse hs
      have hrun : RunsSound (runner bodies fuel).run := ih.runWith fuel
      have henter : w.enter bodies c input = (.ok (y.frame, bodies.resume y.body y.frame input),
          w.modifyHandle c (·.entered (!input.isStart && bodies.forgets y.body))) := by
        simp only [enter, hy, hrefuse]
      have hresume : resume bodies (fuel + 1) c input w = World.leave
          ((bodies.resume y.body y.frame input).perform (runner bodies fuel) (w.modifyHandle c
            (·.entered (!input.isStart && bodies.forgets y.body)))).2 c y.frame
          ((bodies.resume y.body y.frame input).perform (runner bodies fuel) (w.modifyHandle c
            (·.entered (!input.isStart && bodies.forgets y.body)))).1 := by
        show w.resumeWith bodies (Action.perform (runner bodies fuel)) c input = _
        simp only [resumeWith, henter]
      have hk := (hs (!input.isStart && bodies.forgets y.body)).perform hrun
        (hb y.body y.frame input)
      generalize (bodies.resume y.body y.frame input).perform (runner bodies fuel) _ = result
        at hk hresume
      obtain ⟨result, w'⟩ := result
      rw [hresume]
      rcases hk with hk | ⟨⟨r, hr⟩, hk⟩
      · refine .inl ?_
        simp only at hk
        rw [hk]
        rfl
      · refine .inr ?_
        cases result with
        | ok x => exact ⟨x.1, x.2, w', hk, rfl⟩
        | error e =>
            cases e with
            | script record => exact ⟨y.frame, .raise record, w', hk, rfl⟩
            | _ => cases hr

/-- Runs of orderly bodies keep sound worlds sound. -/
theorem runsSound {bodies : Bodies β σ} (hb : bodies.Orderly) (fuel : Nat) :
    RunsSound (runner bodies fuel).run :=
  ResumesSound.runWith (resumesSound hb fuel) fuel

end World

end Coroutines
