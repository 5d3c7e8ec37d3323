import Coroutines.Proofs.Fairness.Turns

/-!
# Whatever is done keeps the lanes

While bodies are resumed, inside one another, their tasks stay in their lanes and the queues of their runs
stay as they are (`World.Halted`): a body that asks for a run gets one on a scheduler that is idle.  So the
tables agree with some lanes at every moment of every execution (`World.Moment.lined`).
-/

namespace Coroutines

namespace World

variable {β σ α γ : Type} {w w' : World β σ} {l l' : Lanes} {s t : Nat} {R : List Nat}
  {Q : Nat → Option (List Nat)}

/-- The tasks of `R` are being resumed, and the runs in progress that `Q` tells of have the queues that it
tells. -/
structure Halted (R : List Nat) (Q : Nat → Option (List Nat)) (w : World β σ) : Prop where
  lined : ∃ l, w.Lined l ∧ ∀ t ∈ R, l t = some .running
  queues : ∀ ⦃s q⦄, Q s = some q → ∃ ctx, w.context? s = some ctx ∧ ctx.ready = q

theorem ambient_halted (R : List Nat) (Q : Nat → Option (List Nat)) :
    Ambient (Halted R Q : World β σ → Prop) := by
  intro w w' htasks hs _ hgroups h
  obtain ⟨l, hl, hR⟩ := h.lined
  have hctx : ∀ s, w'.context? s = w.context? s := fun s => by rw [context?, context?, hs]
  exact ⟨⟨l, hl.of_same htasks (fun s => queue_congr (hctx s)) hgroups, hR⟩,
    fun s q hq => hctx s ▸ h.queues hq⟩

namespace Halted

/-- Fewer tasks and runs are told of. -/
theorem mono {R' : List Nat} {Q' : Nat → Option (List Nat)} (h : w.Halted R Q) (hR : R' ⊆ R)
    (hQ : ∀ ⦃s q⦄, Q' s = some q → Q s = some q) : w.Halted R' Q' := by
  obtain ⟨l, hl, hrun⟩ := h.lined
  exact ⟨⟨l, hl, fun t ht => hrun t (hR ht)⟩, fun s q hq => h.queues (hQ hq)⟩

/-- A change of rows that lanes do not depend on. -/
theorem of_lined (h : w.Halted R Q) (hl : ∀ {l}, w.Lined l → w'.Lined l)
    (hctx : ∀ {s ctx}, w.context? s = some ctx → ∃ ctx', w'.context? s = some ctx' ∧ ctx'.ready = ctx.ready) :
    w'.Halted R Q := by
  obtain ⟨l, hlined, hR⟩ := h.lined
  refine ⟨⟨l, hl hlined, hR⟩, fun s q hq => ?_⟩
  obtain ⟨ctx, hc, rfl⟩ := h.queues hq
  exact hctx hc

/-! ### The turns of a run -/

/-- A turn takes a task from the queue of its run. -/
theorem dequeue (h : w.Halted R Q) (hQ : Q s = none) (hd : w.dequeue s = some (t, w')) :
    w'.Halted (t :: R) (Function.update Q s (some (w'.queue s))) := by
  obtain ⟨l, hl, hR⟩ := h.lined
  obtain ⟨ctx, rest, hc, hr, hw'⟩ := dequeue_eq_some hd
  obtain ⟨hlined, hready⟩ := hl.dequeue hd
  refine ⟨⟨_, hlined, fun u hu => ?_⟩, fun s' q hq => ?_⟩
  · rcases List.mem_cons.mp hu with rfl | hu
    · exact Lanes.set_self ..
    · rw [Lanes.set_of_ne _ _ fun e => ?_, hR u hu]
      have hrun := hR u hu
      rw [e, hready] at hrun
      cases hrun
  · have hctx : ∀ s', w'.context? s' =
        if s = s' then (w.context? s').map fun ctx => { ctx with ready := rest } else w.context? s' := by
      intro s'
      rw [hw', context?_modifyContext]
    rw [Function.update_apply] at hq
    split at hq
    · next e =>
        subst e
        cases hq
        refine ⟨{ ctx with ready := rest }, ?_, ?_⟩
        · rw [hctx, if_pos rfl, hc, Option.map_some]
        · rw [queue, hctx, if_pos rfl, hc]
          rfl
    · next e =>
        rw [hctx, if_neg (Ne.symm e)]
        exact h.queues hq

theorem takeUp (h : w.Halted R Q) (s t : Nat) : (w.takeUp s t).2.Halted R Q := by
  have hsteps : (w.modifyContext s fun ctx => { ctx with steps := ctx.steps + 1 }).Halted R Q := by
    have hctx : ∀ {s' ctx}, w.context? s' = some ctx → ∃ ctx',
        (w.modifyContext s fun ctx => { ctx with steps := ctx.steps + 1 }).context? s' = some ctx' ∧
          ctx'.ready = ctx.ready := by
      intro s' ctx hc
      rw [context?_modifyContext]
      split
      · exact ⟨{ ctx with steps := ctx.steps + 1 }, by rw [hc, Option.map_some], rfl⟩
      · exact ⟨ctx, hc, rfl⟩
    refine h.of_lined (fun hl => hl.of_same rfl (fun s' => ?_) (.of_eq rfl)) hctx
    rw [queue, queue, context?_modifyContext]
    split
    · cases w.context? s' <;> rfl
    · rfl
  simp only [World.takeUp]
  split
  · exact h
  · split
    · exact h
    · split
      · exact hsteps.of_lined (fun hl => hl.emit ..) fun hc => ⟨_, hc, rfl⟩
      · refine hsteps.of_lined (fun hl => hl.modifyTask (f := fun x => { x with state := .running, inbox := .start })
          (fun _ => rfl) (fun _ => id) fun _ _ _ hc ho => ⟨hc, ho⟩) fun hc => ⟨_, hc, rfl⟩

/-- A task that goes on may put some tasks into the queue of its run. -/
theorem absorb {q : List Nat} (h : w.Halted (t :: R) (Function.update Q s (some q))) (hR : t ∉ R)
    (hQ : Q s = none) (top : CoroutineRef) (step : Step) :
    (w.absorb s t top step).2.Halted R Q ∧ ∃ new ctx, (w.absorb s t top step).2.context? s = some ctx ∧
      ctx.ready = q ++ new ∧ (t ∈ new → new = [t]) := by
  obtain ⟨l, hl, hrun⟩ := h.lined
  obtain ⟨ctx, hc, rfl⟩ := h.queues (Function.update_self ..)
  obtain ⟨l', new, honward⟩ := hl.absorb (hrun t List.mem_cons_self) ⟨ctx, hc⟩ top step
  have htouch := Touches.absorb (T := fun _ => True) (A := fun _ => True) (G := fun _ => True) w
    (t := t) trivial s top step (fun _ _ _ _ _ _ _ _ => trivial) (fun _ _ _ => trivial)
  have hqueue : ∀ {s' ctx'}, w.context? s' = some ctx' →
      ∃ ctx₁, (w.absorb s t top step).2.context? s' = some ctx₁ ∧
        ctx₁.ready = ctx'.ready ++ if s' = s then new else [] := by
    intro s' ctx' hc'
    obtain ⟨ctx₁, hc₁, -⟩ := htouch.queue hc'
    have hq := honward.queue s'
    rw [queue, queue, hc₁, hc'] at hq
    exact ⟨ctx₁, hc₁, hq⟩
  refine ⟨⟨⟨l', honward.lined, fun u hu => honward.others u ?_ (hrun u (List.mem_cons_of_mem t hu))⟩,
    fun s' q hq => ?_⟩, new, ?_⟩
  · rintro rfl
    exact hR hu
  · have hne : s' ≠ s := by
      rintro rfl
      rw [hQ] at hq
      cases hq
    obtain ⟨ctx', hc', rfl⟩ := h.queues ((Function.update_of_ne hne _ _).trans hq)
    obtain ⟨ctx₁, hc₁, he⟩ := hqueue hc'
    exact ⟨ctx₁, hc₁, by rw [he, if_neg hne, List.append_nil]⟩
  · obtain ⟨ctx₁, hc₁, he⟩ := hqueue hc
    exact ⟨ctx₁, hc₁, by rw [he, if_pos rfl], honward.last⟩

section

variable {resume : CoroutineRef → Input → World β σ → Except Abort Step × World β σ}
  (hres : ∀ R Q c input, Keeping (Halted R Q : World β σ → Prop) (resume c input))

include hres

/-- A turn of a run. -/
theorem step (h : w.Halted R Q) (hQ : Q s = none) (hd : w.dequeue s = some (t, w')) :
    (w'.step resume s t).2.Halted R Q ∧ (∃ ctx, (w'.step resume s t).2.context? s = some ctx) ∧
      ((w'.step resume s t).1 = .ok () → ∃ new, (w'.step resume s t).2.queue s = w'.queue s ++ new ∧
        (t ∈ new → new = [t])) := by
  have hR : t ∉ R := fun ht => by
    obtain ⟨l, hl, hrun⟩ := h.lined
    obtain ⟨-, hready⟩ := hl.dequeue hd
    rw [hrun t ht] at hready
    cases hready
  have hhalted := h.dequeue hQ hd
  have htake := hhalted.takeUp s t
  have hback : ∀ {v : World β σ}, v.Halted (t :: R) (Function.update Q s (some (w'.queue s))) →
      v.Halted R Q ∧ ∃ ctx, v.context? s = some ctx := fun hv => by
    obtain ⟨ctx, hc, -⟩ := hv.queues (Function.update_self ..)
    refine ⟨hv.mono (List.subset_cons_self ..) fun s' q hq => ?_, ctx, hc⟩
    rw [Function.update_of_ne, hq]
    rintro rfl
    rw [hQ] at hq
    cases hq
  -- the task was in the queue, so it has a coroutine to resume
  obtain ⟨x, hx, hchain, -⟩ : w'.Live t := by
    obtain ⟨l, hl, hrun⟩ := hhalted.lined
    exact hl.live (by rw [hrun t List.mem_cons_self]; exact Option.some_ne_none _)
  obtain ⟨top, rest, hchain⟩ := List.exists_cons_of_ne_nil hchain
  simp only [World.step]
  rcases takeUp_cases (s := s) hx hchain with ⟨limit, e⟩ | e
  · rw [e] at htake ⊢
    obtain ⟨hv, hctx⟩ := hback htake
    exact ⟨hv, hctx, fun h => by cases h⟩
  · rw [e] at htake ⊢
    have hresumed := hres _ _ top x.inbox htake
    rcases hr : resume top x.inbox _ with ⟨e | step, v⟩ <;> rw [hr] at hresumed
    · obtain ⟨hv, hctx⟩ := hback hresumed
      simp only [hr]
      exact ⟨hv, hctx, fun h => by cases h⟩
    · obtain ⟨hv, new, ctx, hc, hready, hlast⟩ := hresumed.absorb hR hQ top step
      simp only [hr]
      refine ⟨hv, ⟨ctx, hc⟩, fun _ => ⟨new, ?_, hlast⟩⟩
      rw [queue, hc]
      exact hready

/-- The turns of a run keep the lanes. -/
theorem drain (hQ : Q s = none) (fuel : Nat) :
    Keeping (fun w : World β σ => w.Halted R Q ∧ ∃ ctx, w.context? s = some ctx)
      (World.drain resume s fuel) := by
  refine Keeping.drain (fun w w' t h hd => ?_) fuel
  obtain ⟨hstep, hctx, -⟩ := h.1.step hres hQ hd
  exact ⟨hstep, hctx⟩

end

/-! ### Runs -/

end Halted

theorem context?_activate (w : World β σ) (s root s' : Nat) : (w.activate s root).context? s' =
    if s = s' then (w.schedulers.get? s').map fun _ => ⟨root, [root], 0⟩ else w.context? s' := by
  rw [activate, context?_modifyScheduler]
  split
  · cases w.schedulers.get? s' <;> rfl
  · rfl

/-- A task of its own becomes the root of a run. -/
theorem Lined.activate {root : Nat} (h : w.Lined l) (hs : ∃ y, w.schedulers.get? s = some y)
    (hidle : w.queue s = []) (hroot : w.Live root) (hl : l root = none) :
    (w.activate s root).Lined (l.set root (some (.ready s))) := by
  obtain ⟨y, hy⟩ := hs
  let v := w.modifyScheduler s fun x => { x with context := some ⟨root, [], 0⟩ }
  have hcontext : ∀ s', v.context? s' = if s = s' then
      (w.schedulers.get? s').map fun _ => ⟨root, [], 0⟩ else w.context? s' := by
    intro s'
    rw [context?_modifyScheduler]
    split
    · cases w.schedulers.get? s' <;> rfl
    · rfl
  have hqueue : ∀ s', v.queue s' = w.queue s' := by
    intro s'
    by_cases e : s = s'
    · subst e
      rw [hidle, queue, hcontext, if_pos rfl, hy]
      rfl
    · rw [queue, hcontext, if_neg e, ← queue]
  have hv : v.Lined l := h.of_same rfl hqueue (.of_eq rfl)
  have hactive : ∃ ctx, v.context? s = some ctx := ⟨⟨root, [], 0⟩, by rw [hcontext, if_pos rfl, hy]; rfl⟩
  refine (hv.enqueue hactive (t := root) hroot (by simp [hl]) (by simp [hl])).of_same rfl (fun s' => ?_)
    (.of_eq rfl)
  rw [queue_enqueue hactive, hqueue, queue, context?_activate]
  by_cases e : s = s'
  · subst e
    rw [if_pos rfl, if_pos rfl, hidle, hy]
    rfl
  · rw [if_neg e, if_neg (Ne.symm e), List.append_nil, ← queue]

/-- The tasks that were left in the queue leave with the run. -/
theorem Lined.deactivate (h : w.Lined l) (s : Nat) :
    (w.deactivate s).Lined fun t => if l t = some (.ready s) then none else l t := by
  have hqueue : ∀ s', (w.deactivate s).queue s' = if s' = s then [] else w.queue s' := by
    intro s'
    rw [queue, context?_deactivate]
    by_cases e : s = s'
    · simp [e]
    · rw [if_neg e, if_neg (Ne.symm e), ← queue]
  refine ⟨fun s' => ?nodup, fun {s' u} => ?ready, fun {u} hu => ?live, fun {g x p} hx hp => ?waiting, h.member⟩
  case nodup =>
    rw [hqueue]
    split
    · exact List.nodup_nil
    · exact h.nodup s'
  case ready =>
    rw [hqueue]
    by_cases e : s' = s
    · subst e
      simp
    · rw [if_neg e, h.ready]
      split
      · next hu => simp [hu, Ne.symm e]
      · rfl
  case live =>
    split at hu
    · exact absurd rfl hu
    · exact h.live hu
  case waiting =>
    refine (h.waiting hx hp).imp_right fun hw => ?_
    rw [if_neg (by simp [hw]), hw]

namespace Halted

/-- A run starts with its root in the queue, or does not start. -/
theorem start (h : w.Halted R Q) (s : Nat) (c : CoroutineRef) : (w.start s c).2.Halted R Q ∧
    ∀ root, (w.start s c).1 = .ok root → Q s = none ∧ (w.start s c).2.queue s = [root] ∧
      ∃ ctx, (w.start s c).2.context? s = some ctx := by
  simp only [World.start]
  split
  · exact ⟨h, fun _ h => by cases h⟩
  · next hidle =>
      obtain ⟨l, hl, hR⟩ := h.lined
      obtain ⟨⟨y, hy⟩, hctx⟩ := idle_of_isActive (Bool.eq_false_iff.mpr hidle)
      obtain ⟨id, hrow⟩ := w.get?_tasks_newTask s c 0 none
      have hcontext := context?_newTask w s c 0 none
      -- the new task stands in no lane yet, and there is no queue to keep for this scheduler
      have hnew : (w.newTask s c 0 none).2.Lined l :=
        hl.push (fun s' => queue_congr (hcontext s')) hrow (fun hy _ => .inl hy) (by simp)
          fun {_ y} hy ha => ⟨y, hy, ha, List.Subset.refl _⟩
      have hhalted : (w.newTask s c 0 none).2.Halted R Q :=
        ⟨⟨l, hnew, hR⟩, fun s' q hq => hcontext s' ▸ h.queues hq⟩
      have hsched : ∃ y, (w.newTask s c 0 none).2.schedulers.get? s = some y :=
        ⟨_, (Table.get?_modify_self ..).trans (by rw [hy, Option.map_some])⟩
      have hQ : Q s = none := by
        cases hq : Q s with
        | none => rfl
        | some q =>
            obtain ⟨ctx, hc, -⟩ := h.queues hq
            rw [hctx] at hc
            cases hc
      -- a run starts when the coroutine lets itself be claimed
      rcases hcl : (w.newTask s c 0 none).2.claim c
        ((w.newTask s c 0 none).2.taskId (w.newTask s c 0 none).1) with ⟨- | f, w₁⟩
      · obtain ⟨z, -, -, -, hw₁⟩ := claim_eq_none hcl
        have hlined : w₁.Lined l := hw₁ ▸ hnew.modifyHandle ..
        have hcontext₁ : ∀ s', w₁.context? s' = w.context? s' := fun s' => by
          rw [hw₁, context?_modifyHandle, hcontext]
        have hsched₁ : ∃ y, w₁.schedulers.get? s = some y := hw₁ ▸ hsched
        have hroot : w₁.Live w.tasks.size :=
          ⟨_, by rw [hw₁, tasks_modifyHandle, hrow, if_pos rfl], List.cons_ne_nil _ _, rfl⟩
        have hnone := hl.eq_none_of_size_le (Nat.le_refl _)
        have hactive := hlined.activate hsched₁ (by rw [queue, hcontext₁, hctx]; rfl) hroot hnone
        have hself : (w₁.activate s w.tasks.size).context? s = some ⟨w.tasks.size, [w.tasks.size], 0⟩ := by
          obtain ⟨y', hy'⟩ := hsched₁
          rw [context?_activate, if_pos rfl, hy']
          rfl
        refine ⟨⟨⟨_, hactive.emit s (.runStart c.name), fun u hu => ?_⟩, fun s' q hq => ?_⟩, fun root hr => ?_⟩
        · rw [Lanes.set_of_ne _ _ fun e => ?_, hR u hu]
          rw [← e, hR u hu] at hnone
          cases hnone
        · have hne : s ≠ s' := fun e => by
            rw [← e, hQ] at hq
            cases hq
          obtain ⟨ctx, hc, hq⟩ := h.queues hq
          refine ⟨ctx, ?_, hq⟩
          exact ((context?_activate w₁ s w.tasks.size s').trans (if_neg hne)).trans ((hcontext₁ s').trans hc)
        · cases hr
          exact ⟨hQ, congrArg (fun ctx => (Option.map RunContext.ready ctx).getD []) hself, _, hself⟩
      · rw [claim_eq_some hcl]
        exact ⟨hhalted, fun _ h => by cases h⟩

section

variable {bodies : Bodies β σ} {fuel : Nat}
  (hres : ∀ R Q c input, Keeping (Halted R Q : World β σ → Prop) (World.resume bodies fuel c input))

include hres

/-- A run keeps the lanes of the tasks outside it and the queues of the runs around it. -/
theorem keeping_run (R : List Nat) (Q : Nat → Option (List Nat)) (s : Nat) (c : CoroutineRef) :
    Keeping (Halted R Q : World β σ → Prop) (World.run bodies fuel s c) := by
  intro w h
  obtain ⟨hstart, hok⟩ := h.start s c
  rw [World.run, runWith_eq]
  rcases hs : w.start s c with ⟨e | root, w₁⟩ <;> rw [hs] at hstart hok
  · exact hstart
  · obtain ⟨hQ, -, hctx⟩ := hok root rfl
    have hended : ∀ {v : World β σ}, v.Halted R Q → ((v.release c).deactivate s).Halted R Q := by
      intro v hv
      obtain ⟨l, hl, hR⟩ := hv.lined
      refine ⟨⟨_, (hl.modifyHandle c Handle.released).deactivate s, fun t ht => ?_⟩, fun s' q hq => ?_⟩
      · rw [if_neg (by simp [hR t ht]), hR t ht]
      · rw [context?_deactivate, if_neg]
        · exact hv.queues hq
        · rintro rfl
          rw [hQ] at hq
          cases hq
    obtain ⟨hdrain, -⟩ := drain hres hQ fuel ⟨hstart, hctx⟩
    simp only [World.andThen]
    rcases hr : World.drain (World.resume bodies fuel) s fuel w₁ with ⟨e | ⟨⟩, w₂⟩ <;> rw [hr] at hdrain
    · exact hended hdrain
    · refine hended ?_
      simp only [World.conclude]
      split
      · exact hdrain
      · exact hdrain.of_lined (fun hl => hl.emit ..) fun hc => ⟨_, hc, rfl⟩

end

/-- **Whatever a resume does keeps the lanes of the tasks that are being resumed and the queues of their
runs**, by induction on how deep runs may nest. -/
theorem keeping_resume (bodies : Bodies β σ) (fuel : Nat) (R : List Nat) (Q : Nat → Option (List Nat))
    (c : CoroutineRef) (input : Input) :
    Keeping (Halted R Q : World β σ → Prop) (World.resume bodies fuel c input) := by
  induction fuel generalizing R Q c input with
  | zero => exact fun _ hw => hw
  | succ fuel ih => exact Keeping.resume_succ (ambient_halted R Q) (keeping_run ih R Q) (ih R Q) c input

theorem keeping_perform (bodies : Bodies β σ) (fuel : Nat) (R : List Nat) (Q : Nat → Option (List Nat))
    (a : Action β σ α) : Keeping (Halted R Q : World β σ → Prop) (a.perform (runner bodies fuel)) :=
  Keeping.perform (ambient_halted R Q) (keeping_run (keeping_resume bodies fuel) R Q)
    (keeping_resume bodies fuel R Q) a

end Halted

/-! ### Every moment -/

theorem Lined.halted (h : w.Lined l) : w.Halted [] fun _ => none := ⟨⟨l, h, nofun⟩, nofun⟩

theorem Halted.forget (h : w.Halted R Q) : w.Halted [] fun _ => none := by
  obtain ⟨l, hl, -⟩ := h.lined
  exact hl.halted

/-- Nothing has been done. -/
theorem Lined.initial (limits : List (Option Number)) (shared : σ) :
    (World.initial limits shared : World β σ).Lined fun _ => none := by
  have hqueue : ∀ s, (World.initial limits shared : World β σ).queue s = [] := by
    intro s
    simp only [queue, context?, World.initial, Table.get?, List.getElem?_toArray, List.getElem?_map]
    cases limits[s]? <;> rfl
  refine ⟨fun s => by simp [hqueue], fun {s t} => by simp [hqueue], fun h => absurd rfl h,
    fun {g x p} hx _ => ?_,
    fun {t x g} hx _ => ?_⟩
  · exact absurd (Table.lt_size_of_get? hx) (Nat.not_lt_zero _)
  · exact absurd (Table.lt_size_of_get? hx) (Nat.not_lt_zero _)

theorem Halted.afterTurns {bodies : Bodies β σ} {fuel n : Nat} (h : w.Halted R Q) (hQ : Q s = none)
    (hn : afterTurns (World.resume bodies fuel) s n w = some w') : w'.Halted R Q := by
  induction n generalizing w with
  | zero =>
      cases hn
      exact h
  | succ n ih =>
      obtain ⟨⟨t, w₁⟩, hd, hn⟩ := Option.bind_eq_some_iff.mp hn
      obtain ⟨hstep, -⟩ := h.step (Halted.keeping_resume bodies fuel) hQ hd
      rcases ht : w₁.step (World.resume bodies fuel) s t with ⟨e | ⟨⟩, w₂⟩ <;> simp only [ht] at hn hstep
      · cases hn
      · exact ih hstep hn

/-- The tables agree with some lanes at every moment of an execution. -/
theorem Visits.halted {bodies : Bodies β σ} {a : Action β σ γ} {fuel : Nat} {rest : Rest β σ γ α}
    {a' : Action β σ α} {depth : Nat} (h : Visits bodies a fuel w rest a' depth w')
    (hw : w.Halted [] fun _ => none) : w'.Halted [] fun _ => none := by
  induction h with
  | refl => exact hw
  | request _ ha ih =>
      exact Keeping.advance (ambient_halted _ _) (Halted.keeping_run (Halted.keeping_resume bodies _) _ _)
        (Halted.keeping_resume bodies _ _ _) ha ih
  | @turn _ _ _ _ _ _ s t top input _ _ w₂ _ _ ht he ih =>
      obtain ⟨hs, hturns, hd, ht, -⟩ := ht
      next c _ _ _ w₄ _ =>
      have hstart := (ih.start s c).1
      rw [hs] at hstart
      have htaken := ((hstart.afterTurns rfl hturns).dequeue rfl hd).forget.takeUp s t
      rw [ht] at htaken
      have hentered : (w₂.enter bodies top input).2.Halted [] fun _ => none :=
        Keeping.enter (ambient_halted _ _) bodies top input htaken
      rwa [he] at hentered
  | @resume _ _ _ _ c input _ _ w₁ _ _ he ih =>
      have hentered : (w₁.enter bodies c input).2.Halted [] fun _ => none :=
        Keeping.enter (ambient_halted _ _) bodies c input ih
      rwa [he] at hentered

theorem History.halted (h : History w w') (hw : w.Halted [] fun _ => none) : w'.Halted [] fun _ => none := by
  induction h with
  | refl => exact hw
  | more _ bodies fuel a ih => exact Halted.keeping_perform bodies fuel _ _ a (ih hw)

theorem Moment.halted {limits : List (Option Number)} {shared : σ} {bodies : Bodies β σ}
    {rest : Rest β σ γ α} {a : Action β σ α} {depth : Nat}
    (h : Moment limits shared bodies rest a depth w) : w.Halted [] fun _ => none := by
  obtain ⟨a₀, fuel, w₀, hh, hv⟩ := h
  exact hv.halted (hh.halted (Lined.initial limits shared).halted)

end World

end Coroutines
