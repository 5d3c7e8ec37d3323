import Coroutines.Proofs.Isolation.Following

/-!
# A turn along a plan

A turn of a run that follows its plans carries out one resume of the plan of its task: the task is
taken up, its coroutine is resumed as in the evaluation, and the task goes on from the step that
the resume ends with.
-/

namespace Coroutines

namespace World

variable {β σ : Type} {w : World β σ} {s t : Nat} {q : List Nat}

theorem mode_of_schedulers {w' : World β σ} (h : w'.schedulers = w.schedulers) (s : Nat) :
    w'.mode s = w.mode s := by rw [mode, mode, h]

theorem mode_modifyScheduler (w : World β σ) (s s' : Nat) {f : Scheduler → Scheduler}
    (hf : ∀ x, (f x).context.isSome = x.context.isSome ∧ (f x).maxSteps = x.maxSteps) :
    (w.modifyScheduler s f).mode s' = w.mode s' := by
  simp only [mode, modifyScheduler, Table.get?_modify]
  split
  · rw [Option.map_map]
    exact congrArg (Option.map · _) (funext fun x => Prod.ext (hf x).1 (hf x).2)
  · rfl

@[simp] theorem mode_modifyContext (w : World β σ) (s s' : Nat) (f : RunContext → RunContext) :
    (w.modifyContext s f).mode s' = w.mode s' :=
  mode_modifyScheduler w s s' fun x => ⟨by simp, rfl⟩

@[simp] theorem mode_enqueue (w : World β σ) (s t s' : Nat) :
    (w.enqueue s t).mode s' = w.mode s' := mode_modifyContext ..

@[simp] theorem mode_modifyTask (w : World β σ) (t s : Nat) (f : Task → Task) :
    (w.modifyTask t f).mode s = w.mode s := rfl

@[simp] theorem extent_modifyTask (w : World β σ) (t : Nat) (f : Task → Task) (k : NameKind) :
    (w.modifyTask t f).extent k = w.extent k := by cases k <;> rfl

@[simp] theorem extent_modifyContext (w : World β σ) (s : Nat) (f : RunContext → RunContext)
    (k : NameKind) : (w.modifyContext s f).extent k = w.extent k := by cases k <;> rfl

@[simp] theorem extent_enqueue (w : World β σ) (s t : Nat) (k : NameKind) :
    (w.enqueue s t).extent k = w.extent k := by cases k <;> rfl

theorem claim_of_fresh {c : CoroutineRef} {x : Handle β} (hx : w.handles.get? c.id = some x)
    (hf : x.Fresh) (task : Nat) : w.claim c task = (none, w.modifyHandle c (·.ownedBy task)) := by
  simp only [claim, hx, Handle.claimFailure?_eq_none_iff.mpr hf]

/-- A task that awaits a fresh coroutine takes it into its chain. -/
theorem suspend_fresh {c : CoroutineRef} {x : Task} {y : Handle β}
    (hx : w.tasks.get? t = some x) (hy : w.handles.get? c.id = some y) (hf : y.Fresh) :
    ∃ task w', w.suspend s t (.coroutine c) = (.ok (), w') ∧
      w'.handles = (w.modifyHandle c (·.ownedBy task)).handles ∧ w'.groups = w.groups ∧
      (∀ k, w'.extent k = w.extent k) ∧ w'.shared = w.shared ∧
      w'.schedulers = (w.enqueue s t).schedulers ∧
      ∀ u, w'.tasks.get? u = if u = t then
        some { x with state := .suspended, chain := c :: x.chain } else w.tasks.get? u := by
  have hclaim := claim_of_fresh (w := w.modifyTask t fun x => { x with state := .suspended }) hy hf
    ((w.modifyTask t fun x => { x with state := .suspended }).taskId t)
  simp only [suspend, hclaim]
  exact ⟨_, _, rfl, rfl, rfl, fun k => extent_modifyHandle .., rfl, rfl,
    get?_modifyTask_of_rows (v := (w.modifyTask t _).modifyHandle c _)
      (get?_modifyTask_of_get? hx _) _⟩

end World

namespace TaskPlan

variable {β σ : Type} {w w' : World β σ} {s t : Nat} {q : List Nat}

theorem Lined.of_schedulers (h : Lined w s q) (e : w'.schedulers = w.schedulers) : Lined w' s q := by
  obtain ⟨x, ctx, hx, hrest⟩ := h
  exact ⟨x, ctx, by rw [e, hx], hrest⟩

theorem Lined.of_standing (h : Lined w s q)
    (e : (w'.schedulers.get? s).map Scheduler.standing = (w.schedulers.get? s).map Scheduler.standing) :
    Lined w' s q := by
  obtain ⟨x, ctx, hx, hm, hc, hq⟩ := h
  rw [hx] at e
  obtain ⟨y, hy, hxy⟩ := Option.map_eq_some_iff.mp e
  obtain ⟨hcy, hmy⟩ := Prod.mk.inj hxy
  exact ⟨y, ctx, hy, hmy.trans hm, hcy.trans hc, hq⟩

theorem Lined.isActive (h : Lined w s q) : w.isActive s = true := by
  obtain ⟨x, ctx, hx, -, hc, -⟩ := h
  simp only [World.isActive, hx, hc, Option.isSome_some]

theorem Lined.modifyContext (h : Lined w s q) {f : RunContext → RunContext} {q' : List Nat}
    (hf : ∀ ctx, ctx.ready = q → (f ctx).ready = q') : Lined (w.modifyContext s f) s q' := by
  obtain ⟨x, ctx, hx, hm, hc, hq⟩ := h
  refine ⟨{ x with context := x.context.map f }, f ctx, ?_, hm, by simp [hc], hf ctx hq⟩
  exact (Table.get?_modify_self ..).trans (by rw [hx]; rfl)

theorem Lined.enqueue (h : Lined w s q) : Lined (w.enqueue s t) s (q ++ [t]) :=
  h.modifyContext fun ctx hq => by simp [hq]

/-- A run with a task in its queue takes it. -/
theorem Lined.dequeue (h : Lined w s (t :: q)) :
    w.dequeue s = some (t, w.modifyContext s fun ctx => { ctx with ready := q }) := by
  obtain ⟨x, ctx, hx, -, hc, hq⟩ := h
  simp [World.dequeue, World.context?, hx, hc, hq]

/-- A run without a limit takes any task up that has a coroutine to resume. -/
theorem Lined.takeUp (h : Lined w s q) {x : Task} {top : CoroutineRef} {rest : List CoroutineRef}
    (hx : w.tasks.get? t = some x) (hc : x.chain = top :: rest) :
    w.takeUp s t = (.ok (some (top, x.inbox)),
      (w.modifyContext s fun ctx => { ctx with steps := ctx.steps + 1 }).modifyTask t fun x =>
        { x with state := .running, inbox := .start }) := by
  obtain ⟨y, ctx, hy, hm, hctx, -⟩ : Lined (w.modifyContext s fun ctx =>
      { ctx with steps := ctx.steps + 1 }) s q := h.modifyContext fun _ e => e
  simp only [World.takeUp, hx, hc, World.exceeded?, hy]
  obtain ⟨n, c, limit⟩ := y
  cases hm
  cases hctx
  rfl

variable {bodies : Bodies β σ} {constant : σ → Prop} {iso : Isolation bodies s constant} {ρ ρ' : Names}
  {p : TaskPlan β σ} {A B : List (TaskPlan β σ)} {ps : List (TaskPlan β σ)} {root : Nat} {o : Outcome}

/-- A turn that changes the task of a plan, and of the coroutines and groups only those of the plan,
names nothing new. -/
theorem Turn.own {x x' : Task} (h : Track iso ρ w ps) (hx : w.tasks.get? p.task = some x)
    (hrow : ∀ u, w'.tasks.get? u = if u = p.task then some x' else w.tasks.get? u)
    (hgroup : x'.group = x.group) (hextent : ∀ k, w.extent k ≤ w'.extent k)
    (hshared : w'.shared = w.shared) (hmode : ∀ t, w'.mode t = w.mode t)
    (hhandles : ∀ {j y}, w.handles.get? j = some y → (∀ i, ρ .coroutine i j → ¬ p.Uses i) →
      w'.handles.get? j = some y)
    (hgroups : ∀ {j y}, w.groups.get? j = some y → y.awaitedBy ≠ some p.task →
      (∀ i, ρ .group i j → ¬ p.Opens i) → w'.groups.get? j = some y) :
    Turn iso ρ ρ w w' p where
  le _ _ _ e := e
  oneToOne := h.oneToOne
  bound e := Nat.lt_of_lt_of_le (h.bound e) (hextent _)
  shared h := hshared ▸ h
  mode := hmode
  handles := hhandles
  groups := hgroups
  tasks _ hne := (hrow _).trans (if_neg hne)
  group {y} hy := by
    cases hx.symm.trans hy
    exact ⟨x', (hrow _).trans (if_pos rfl), hgroup⟩
  fresh := .inl

/-! ### Taking up -/

/-- The task at the head of the queue is taken up with the input of its plan. -/
theorem Follows.takeUp (h : Follows iso ρ w root o (t :: q) none ps) :
    ∃ A p B input c chain top input' w₁ w₂, ps = A ++ p :: B ∧ p.stage = .ready input ∧
      p.chain = c :: chain ∧ c.Alike ρ top ∧ input.Alike Eq ρ input' ∧ p.task = t ∧
      World.Continues iso p.start p.chain input p.outcome p.finish p.turns ∧
      w.dequeue s = some (t, w₁) ∧ w₁.takeUp s t = (.ok (some (top, input')), w₂) ∧
      Follows iso ρ w₂ root o q none (A ++ { p with stage := .held } :: B) := by
  obtain ⟨p, hp, rfl, input, hs⟩ := h.queue.mem_iff.mp (List.mem_cons_self (a := t) (l := q))
  obtain ⟨A, B, rfl⟩ := List.append_of_mem hp
  have hm := h.track.mirrors p hp
  obtain ⟨x, hx, ho, hchain, hin⟩ := hm.task
  have hplan := hm.planned
  simp only [Planned, hs] at hplan
  rw [hs] at hin
  obtain ⟨c, chain, hpc⟩ := List.exists_cons_of_ne_nil hplan.1
  rw [hpc] at hchain
  obtain ⟨top, rest, hc, hrest, hxc⟩ := List.forall₂_cons_left_iff.mp hchain
  have hlined : Lined (w.modifyContext s fun ctx => { ctx with ready := q }) s q :=
    h.queue.lined.modifyContext fun _ _ => rfl
  refine ⟨A, p, B, input, c, chain, top, x.inbox, _, _, rfl, hs, hpc, hc, hin, rfl, hplan.2,
    h.queue.lined.dequeue, hlined.takeUp hx hxc, ?_⟩
  generalize hw₂ : World.modifyTask _ p.task _ = w₂
  have hrow : ∀ u, w₂.tasks.get? u =
      if u = p.task then some { x with state := .running, inbox := .start } else w.tasks.get? u := by
    rw [← hw₂]
    exact World.get?_modifyTask_of_get? hx _
  have hmode : ∀ t, w₂.mode t = w.mode t := by simp [← hw₂]
  have hhandles : w₂.handles = w.handles := by rw [← hw₂]; rfl
  have hgroups : w₂.groups = w.groups := by rw [← hw₂]; rfl
  refine h.move (.own h.track hx hrow rfl (fun k => by simp [← hw₂]) (by rw [← hw₂]; rfl) hmode
    (fun hx _ => hhandles ▸ hx) fun hx _ _ => hgroups ▸ hx) ⟨.refl _, hm.order, .refl _⟩ rfl rfl
    (fun d hd => .inl ⟨d, hd, rfl⟩) ?_ ?_ (by rintro ⟨_, _, _, _, ⟨⟩⟩) ?_
  · refine hm.change ⟨.refl _, hm.order, .refl _⟩ trivial (fun _ _ _ h => h) hmode
      (fun _ _ hx _ => hhandles ▸ hx) (fun _ _ hx _ => hgroups ▸ hx) .inl hm.nodup ?_ ?_
    · intro d hd j hj
      rw [hhandles]
      exact hm.held hd hj
    · exact ⟨_, (hrow _).trans (if_pos rfl), ho, by rw [hpc, hxc]; exact .cons hc hrest, rfl⟩
  · rintro ⟨g, re, os, rest, e⟩
    cases hs.symm.trans e
  · refine h.queue.pop (fun r => h.track.task_ne) (by rintro ⟨_, ⟨⟩⟩) ?_
    rw [← hw₂]
    exact (hlined.modifyContext (f := fun ctx => { ctx with steps := ctx.steps + 1 })
      fun _ e => e).of_schedulers rfl

/-! ### Resuming -/

/-- **The coroutine of a task that was taken up is resumed as in the evaluation**, and the run follows
the plan from the world that the evaluation comes to. -/
theorem Follows.resume (h : Follows iso ρ w root o q none (A ++ p :: B)) (hs : p.stage = .held)
    {c top : CoroutineRef} {chain : List CoroutineRef} {input input' : Input} {step : Step}
    {u : World β σ} {n : Nat} (m : Nat) (hpc : p.chain = c :: chain) (hc : c.Alike ρ top)
    (hin : input.Alike Eq ρ input')
    (hadmitted : p.start.Admitted iso) (hl : p.start.Leaves iso.admits constant c.id u) (hnm : n ≤ m)
    (hr : World.resume bodies (n + 1) c input p.start = (.ok step, u))
    (hu : u.Precedes p.finish) :
    ∃ ρ' step' w', World.resume bodies (m + 1) top input' w = (.ok step', w') ∧
      step.Alike Eq ρ' step' ∧ ρ ≤ ρ' ∧
      Follows iso ρ' w' root o q none (A ++ { p with start := u } :: B) := by
  have hm : p.Mirrors iso ρ w := h.track.mirrors p (by simp)
  have hcp : c ∈ p.chain := by simp [hpc]
  obtain ⟨x, x', hx, hx', ha, -, -⟩ := hm.held hcp hc.2
  obtain ⟨ρ', step', w', hr', hstep, hadv, hconstant⟩ := iso.resume h.track.oneToOne
    ⟨fun e => (hm.gap e).imp_right fun hi => Nat.le_trans (hu.extent _) hi, h.track.bound⟩ hadmitted.active
    hm.mode hadmitted.shared h.track.shared hx hx' (hadmitted.handles hx) ha hin hnm hr
  obtain ⟨y, y', hy, hy', hay, hyc'⟩ := hadv.row
  have hyc := hl.started hy
  have hpre : p.start.Precedes u := hl.moved.precedes hl.started
  have hwithin : Within { p with start := u } p := ⟨hpre, hu, .refl _⟩
  have hmode : ∀ t, w'.mode t = w.mode t := hadv.right.mode
  have htask : w'.tasks.get? p.task = w.tasks.get? p.task := hadv.right.tasks hm.lt_size
  -- a name that the run knew is that of the resumed coroutine on both sides or on none
  have hne : ∀ {i j}, ρ .coroutine i j → i ≠ c.id → j ≠ top.id := fun hij hi e =>
    hi ((h.track.oneToOne hij hc.2).mpr e)
  refine ⟨ρ', step', w', hr', hstep, hadv.le, h.move (l := { p with start := u }) ?_ hwithin rfl rfl
    (fun d hd => .inl ⟨d, hd, rfl⟩) ?_ (by simp [Waits, hs]) (by simp [Waits, hs]) ?_⟩
  · refine ⟨hadv.le, hadv.oneToOne, fun {k i j} e => ?_, fun _ => hconstant, hmode,
      fun {j z} hz hj => ?_, fun hz _ _ => hadv.right.groups hz, fun ht _ => hadv.right.tasks ht,
      fun {z} hz => ⟨z, htask.trans hz, rfl⟩, fun {k i j} e => ?_⟩
    · rcases hadv.fresh e with e | ⟨-, hj, -⟩
      · exact Nat.lt_of_lt_of_le (h.track.bound e) (hadv.right.extent k)
      · exact hj.2
    · refine hadv.right.handles ?_ hz
      rintro rfl
      exact hj c.id hc.2 (.inl ⟨c, hcp, rfl⟩)
    · exact (hadv.fresh e).imp_right fun hn => ⟨u, hu, hn.1.1, hn.1.2, hn.2.2⟩
  · refine hm.change hwithin (by simp [Planned, hs]) hadv.le hmode (fun {i j z} hi hij hz _ => ?_)
      (fun _ _ hz _ => hadv.right.groups hz) (fun {k i j} e => ?_) hm.nodup (fun {d} hd j hj => ?_) ?_
    · refine hadv.right.handles (hne hij ?_) hz
      rintro rfl
      obtain ⟨z', hz', hf, -⟩ := hi
      rw [hy] at hz'
      cases hz'
      exact hyc hf.1
    · exact (hadv.fresh e).imp_right fun hn => .inl ⟨u, .refl _, hn.1.2, hn.2.2⟩
    · obtain ⟨j', hj'⟩ := hm.exists_name hd
      obtain rfl := (hadv.oneToOne (hadv.le _ _ _ hj') hj).mp rfl
      by_cases e : d.id = c.id
      · rw [e] at hj' ⊢
        obtain rfl := (h.track.oneToOne hj' hc.2).mp rfl
        exact ⟨y, y', hy, hy', hay, fun hf => hyc hf.1, fun hf => hyc' hf.1⟩
      · obtain ⟨z, z', hz, hz', hza, hf, hf'⟩ := hm.held hd hj'
        exact ⟨z, z', hl.moved.handles e hz, hadv.right.handles (hne hj' e) hz', hza.mono hadv.le,
          hf, hf'⟩
    · obtain ⟨z, hz, ho, hzc, hzi⟩ := hm.task
      exact ⟨z, htask.trans hz, ho, hzc.imp fun _ _ hd => hd.mono hadv.le,
        hzi.mono hadv.le⟩
  · exact h.queue.keep (L := [_]) (by simp [Ready, hs]) (by simp [Ready, hs])
      (h.queue.lined.of_standing (hadv.right.schedulers _))

/-! ### Going on -/

/-- A name of the run is that of another coroutine than the corresponding one of the evaluation. -/
theorem Track.name_ne (h : Track iso ρ w ps) {c top : CoroutineRef} (hc : c.Alike ρ top) {i j : Nat}
    (hij : ρ .coroutine i j) (hi : i ≠ c.id) : j ≠ top.id :=
  fun e => hi ((h.oneToOne hij hc.2).mpr e)

/-- The coroutine on top of a chain has ended, and hands its outcome to the one below it. -/
theorem Follows.handOn (h : Follows iso ρ w root o q none (A ++ p :: B)) (hs : p.stage = .held)
    {c d top : CoroutineRef} {chain : List CoroutineRef} {oc oc' : Outcome} {n : Nat}
    (hpc : p.chain = c :: d :: chain) (hc : c.Alike ρ top) (ho : oc.Alike Eq ρ oc')
    (hplan : World.Continues iso p.start (d :: chain) oc.input p.outcome p.finish n) :
    ∃ w', w.unwind s p.task top oc' = (.ok (), w') ∧
      Follows iso ρ w' root o (q ++ [p.task]) none (A ++ { p with
        chain := d :: chain, turns := n, stage := .ready oc.input } :: B) := by
  have hm : p.Mirrors iso ρ w := h.track.mirrors p (by simp)
  obtain ⟨x, hx, hout, hchain, -⟩ := hm.task
  rw [hpc] at hchain
  obtain ⟨top', rest, -, hrest, hxc⟩ := List.forall₂_cons_left_iff.mp hchain
  obtain ⟨e, es, -, -, he⟩ := List.forall₂_cons_left_iff.mp hrest
  have hcp : c ∈ p.chain := by simp [hpc]
  generalize hw' : ((w.modifyTask p.task fun x => { x with chain := x.chain.tail }).release top).deliver
    s p.task oc'.input = w'
  have hrow : ∀ u, w'.tasks.get? u = if u = p.task then
      some { x with chain := rest, inbox := oc'.input, state := .suspended } else w.tasks.get? u := by
    have htail : x.chain.tail = rest := by rw [hxc, List.tail_cons]
    rw [← hw', ← htail]
    exact World.get?_modifyTask_of_rows (v := World.release (w.modifyTask p.task _) top)
      (World.get?_modifyTask_of_get? hx _) _
  refine ⟨w', ?unwinds, ?_⟩
  case unwinds =>
    rw [← hw']
    have hget : ((w.modifyTask p.task fun x => { x with chain := x.chain.tail }).release top).tasks.get?
        p.task = some { x with chain := x.chain.tail } := by
      rw [World.release, World.tasks_modifyHandle, World.get?_tasks_modifyTask, if_pos rfl, hx,
        Option.map_some]
    simp only [World.unwind, hget, hxc, he]
    rfl
  have hhandles : ∀ {j y}, j ≠ top.id → w.handles.get? j = some y → w'.handles.get? j = some y := by
    rw [← hw']
    exact fun hj hy => World.get?_handles_modifyHandle_of_ne _ _ _ hj hy
  have hmode : ∀ t, w'.mode t = w.mode t := by
    intro s'
    rw [← hw']
    exact World.mode_enqueue ..
  -- no coroutine of a chain stands in it twice, so the one on top alone is released
  have hnodup := hm.nodup
  rw [hpc, List.map_cons, List.nodup_cons] at hnodup
  have hne : ∀ c' ∈ d :: chain, c'.id ≠ c.id := fun c' hc' e =>
    hnodup.1 (e ▸ List.mem_map_of_mem hc')
  refine h.move (.own h.track hx hrow rfl (fun k => ?extent) (by rw [← hw']; rfl) hmode
    (fun {j y} hy hj => hhandles ?foreign hy) fun hy _ _ => by rw [← hw']; exact hy)
    ⟨.refl _, hm.order, .refl _⟩ rfl rfl (fun c' hc' => .inl ⟨c', hpc ▸ List.mem_cons_of_mem _ hc', rfl⟩)
    ?mirrors (by simp [Waits, hs]) (by rintro ⟨_, _, _, _, ⟨⟩⟩) ?queue
  case extent =>
    rw [← hw']
    exact Nat.le_of_eq (World.extent_modifyHandle _ top _ k).symm
  case foreign =>
    rintro rfl
    exact hj c.id hc.2 (.inl ⟨c, hcp, rfl⟩)
  case mirrors =>
    refine hm.change ⟨.refl _, hm.order, .refl _⟩ ⟨(fun h => by cases h), hplan⟩ (fun _ _ _ h => h) hmode
      (fun {i j y} hi hij hy _ => hhandles (h.track.name_ne hc hij ?_) hy)
      (fun _ _ hy _ => by rw [← hw']; exact hy) .inl hnodup.2 (fun {c'} hc' {j} hj => ?_) ?_
    · rintro rfl
      exact hm.not_claims hm hcp hi
    · obtain ⟨y, y', hy, hy', ha⟩ := hm.held (hpc ▸ List.mem_cons_of_mem _ hc') hj
      exact ⟨y, y', hy, hhandles (h.track.name_ne hc hj (hne c' hc')) hy', ha⟩
    · exact ⟨_, (hrow _).trans (if_pos rfl), hout, hrest, ho.input⟩
  case queue =>
    refine h.queue.requeue (by simp [Ready, hs]) rfl ⟨_, rfl⟩ (fun r => h.track.task_ne) ?_
    rw [← hw']
    exact Lined.enqueue (h.queue.lined.of_schedulers rfl)

/-- What the evaluation claims, the plan is going to claim. -/
theorem claims_of_claim {d : CoroutineRef} {k : Nat} {u : World β σ}
    (hc : p.start.claim d k = (none, u)) (hu : u.Precedes p.finish) : p.Claims d.id := by
  obtain ⟨x, hx, hs, ho, rfl⟩ := World.claim_eq_none hc
  refine ⟨x, hx, ⟨hs, ho⟩, fun y hy hf => ?_⟩
  have hlt : d.id < (p.start.modifyHandle d (·.ownedBy k)).extent .coroutine := by
    rw [World.extent_modifyHandle]
    exact Table.lt_size_of_get? hx
  have hy' := hu.handles hy hf hlt
  rw [World.get?_modifyHandle_self hx] at hy'
  cases hy'
  cases hf.2

/-- A task awaits a coroutine that the evaluation claims: it is claimed in the run as well. -/
theorem Follows.chain (h : Follows iso ρ w root o q none (A ++ p :: B)) (hs : p.stage = .held)
    {d d' : CoroutineRef} {k n : Nat} {u : World β σ} (hd : d.Alike ρ d')
    (hc : p.start.claim d k = (none, u)) (hu : u.Precedes p.finish)
    (hplan : World.Continues iso u (d :: p.chain) .start p.outcome p.finish n) :
    ∃ w', w.suspend s p.task (.coroutine d') = (.ok (), w') ∧
      Follows iso ρ w' root o (q ++ [p.task]) none (A ++ { p with
        start := u, chain := d :: p.chain, turns := n, stage := .ready .start } :: B) := by
  have hm : p.Mirrors iso ρ w := h.track.mirrors p (by simp)
  have hclaim := claims_of_claim hc hu
  obtain ⟨x, hx, hout, hchain, hin⟩ := hm.task
  rw [hs] at hin
  obtain ⟨y, y', hy, hy', ha, hf'⟩ := hm.claims hclaim hd.2
  have hpre := World.Precedes.claim hc
  obtain ⟨y₀, hy₀, hys, hyo, rfl⟩ := World.claim_eq_none hc
  cases hy.symm.trans hy₀
  obtain ⟨task, w', hsuspend, hhandles, hgroups, hextent, hshared, hsched, hrow⟩ :=
    World.suspend_fresh (s := s) hx hy' hf'
  refine ⟨w', hsuspend, ?_⟩
  have hmode : ∀ t, w'.mode t = w.mode t := fun t =>
    (World.mode_of_schedulers hsched t).trans (World.mode_enqueue w s p.task t)
  have hother : ∀ {j z}, j ≠ d'.id → w.handles.get? j = some z → w'.handles.get? j = some z := by
    rw [hhandles]
    exact World.get?_handles_modifyHandle_of_ne _ _ _
  -- what the chain holds was not fresh
  have hne : ∀ c ∈ p.chain, c.id ≠ d.id := fun c hc e => hm.not_claims hm hc (e ▸ hclaim)
  refine h.move (.own h.track hx hrow rfl (fun k => Nat.le_of_eq (hextent k).symm) hshared hmode
    (fun {j z} hz hj => hother ?_ hz) fun hz _ _ => hgroups ▸ hz) ⟨hpre, hu, .refl _⟩ rfl rfl (fun c hc => ?_)
    ?_ (by simp [Waits, hs]) (by rintro ⟨_, _, _, _, ⟨⟩⟩) ?_
  · rintro rfl
    exact hj d.id hd.2 (.inr hclaim)
  · rcases List.mem_cons.mp hc with rfl | hc
    · exact .inr hclaim
    · exact .inl ⟨c, hc, rfl⟩
  · refine hm.change ⟨hpre, hu, .refl _⟩ ⟨(fun h => by cases h), hplan⟩ (fun _ _ _ h => h) hmode
      (fun {i j z} hi hij hz _ => hother (h.track.name_ne hd hij ?_) hz)
      (fun _ _ hz _ => hgroups ▸ hz) .inl ?_ (fun {c} hc {j} hj => ?_) ?_
    · rintro rfl
      obtain ⟨z', hz', hf, -⟩ := hi
      rw [World.get?_modifyHandle_self hy] at hz'
      cases hz'
      cases hf.2
    · rw [List.map_cons, List.nodup_cons]
      refine ⟨fun hc => ?_, hm.nodup⟩
      obtain ⟨c, hc, e⟩ := List.mem_map.mp hc
      exact hne c hc e
    · rcases List.mem_cons.mp hc with rfl | hc
      · obtain rfl := (h.track.oneToOne hj hd.2).mp rfl
        refine ⟨y.ownedBy k, y'.ownedBy task, ?_, ?_, ⟨ha.name, ha.body, ha.frame, ha.status⟩, (by rintro ⟨_, ⟨⟩⟩),
          (by rintro ⟨_, ⟨⟩⟩)⟩
        · exact World.get?_modifyHandle_self hy _
        · rw [hhandles, World.get?_modifyHandle_self hy']
      · obtain ⟨z, z', hz, hz', ha, hf⟩ := hm.held hc hj
        exact ⟨z, z', World.get?_handles_modifyHandle_of_ne _ _ _ (hne c hc) hz,
          hother (h.track.name_ne hd hj (hne c hc)) hz', ha, hf⟩
    · exact ⟨_, (hrow _).trans (if_pos rfl), hout, .cons hd hchain, by rw [hin]; exact .start⟩
  · exact h.queue.requeue (by simp [Ready, hs]) rfl ⟨_, rfl⟩ (fun r => h.track.task_ne)
      ((h.queue.lined.enqueue).of_schedulers hsched)

end TaskPlan

end Coroutines
