import Coroutines.Proofs.Ownership.Turns

/-!
# What a task does with a step

The step that a resume ended with suspends the task, hands the outcome of its coroutine to the one
that waits for it, or ends the task.  In each case the world is sound again and no task of the run
is being resumed.
-/

namespace Coroutines

namespace World

variable {β σ : Type} {w w' : World β σ} {l : Standing} {base : Nat → Start}

/-! ### The end of a coroutine -/

/-- The coroutine that waited for the one that has ended is resumed next, with the outcome. -/
theorem Sound.handOver {s t : Nat} {x : Task} {top d : CoroutineRef} {rest : List CoroutineRef}
    {f : Handle β → Handle β} (h : w.Sound l base none) (x' : Task) (ht : l t = some (s, .current top))
    (hx : w.tasks.get? t = some x) (hc : x.chain = top :: d :: rest)
    (hf : ∀ y, (f y).status.isFinished = true)
    (hrow : ∀ u, w'.tasks.get? u = if u = t then some x' else w.tasks.get? u)
    (hid : x'.id = x.id) (hgroup : x'.group = x.group) (hchain : x'.chain = d :: rest)
    (hout : x'.outcome = x.outcome) (hinbox : x'.inbox.isStart = false)
    (hsize : w'.tasks.size = w.tasks.size) (hgroups : w'.groups = w.groups)
    (hhandles : w'.handles = ((w.modifyHandle top f).release top).handles)
    (hctx : ∀ s', w'.context? s' = if s = s' then
      (w.context? s').map fun ctx => { ctx with ready := ctx.ready ++ [t] } else w.context? s') :
    w'.Sound (l.set t s .ready) base none := by
  obtain ⟨hh, rest', y, hc', hy, -, ho, -, hne⟩ := h.chained.exists_top ht hx
  rw [hc] at hc'
  cases hc'
  have hget := get?_release_modifyHandle hy f
  rw [← hhandles] at hget
  have hsub : ∀ c ∈ x'.chain, c ∈ x.chain := fun c hd => by
    rw [hc]
    exact List.mem_cons_of_mem _ (hchain ▸ hd)
  have hold : ∀ c ∈ x'.chain, w'.handles.get? c.id = w.handles.get? c.id := fun c hd =>
    (hget _).trans (if_neg (hne c (hchain ▸ hd)))
  have hlinked := hh.linked
  rw [hc] at hlinked
  obtain ⟨hwaits, hlinked⟩ := List.isChain_cons_cons.mp hlinked
  refine h.requeue ht hx hgroup hrow hsize hgroups (fun i hi _ => ?_) (fun c hd => .inl (hsub c hd))
    ?_ (fun {c} hd => ?_) hctx
  · exact (hget i).trans (if_neg (hi top (by simp [hc])))
  · refine ⟨?outcome, ?empty, ?owned, ?nodup, ?linked, ?head⟩
    case outcome =>
      rw [hout, hh.outcome]
      exact iff_of_false nofun nofun
    case empty =>
      rw [hchain]
      exact iff_of_false nofun nofun
    case owned =>
      intro c hd
      rw [hid]
      exact (hh.owned c (hsub c hd)).of_get? (hold c hd)
    case nodup =>
      have hn := hh.nodup
      rw [hc, List.map_cons, List.nodup_cons] at hn
      exact hchain ▸ hn.2
    case linked =>
      rw [hchain]
      refine hlinked.imp_of_mem_tail_imp fun _ c _ hd hw => hw.of_get? (hold c ?_)
      rw [hchain]
      exact List.mem_cons_of_mem _ hd
    case head =>
      intro c hd
      rw [hchain] at hd
      cases hd
      obtain ⟨z, hz, hs, -⟩ := hwaits
      exact ⟨z, (hold d (by simp [hchain])).trans hz, .inr ⟨hs, hinbox⟩⟩
  · rw [hc] at hd
    rcases List.mem_cons.mp hd with rfl | hd
    · exact .inr ⟨_, (hget _).trans (if_pos rfl), hf y⟩
    · exact .inl (hchain ▸ hd)

/-- A task whose last coroutine has ended has ended; its group may now have to be closed. -/
theorem Sound.ends {s t : Nat} {x x' : Task} {top : CoroutineRef} {f : Handle β → Handle β}
    (h : w.Sound l base none) (ht : l t = some (s, .current top)) (hx : w.tasks.get? t = some x)
    (hc : x.chain = [top]) (hf : ∀ y, (f y).status.isFinished = true)
    (hrow : ∀ u, w'.tasks.get? u = if u = t then some x' else w.tasks.get? u)
    (hgroup : x'.group = x.group) (hchain : x'.chain = []) (hout : x'.outcome.isSome = true)
    (hsize : w'.tasks.size = w.tasks.size) (hgroups : w'.groups = w.groups)
    (hhandles : w'.handles = ((w.modifyHandle top f).release top).handles)
    (hctx : ∀ s', w'.context? s' = w.context? s') :
    w'.Sound (l.set t s .ended) base (x.group.map GroupRef.id) := by
  obtain ⟨hh, rest', y, hc', hy, -, ho, -, hne⟩ := h.chained.exists_top ht hx
  rw [hc] at hc'
  cases hc'
  have hget := get?_release_modifyHandle hy f
  rw [← hhandles] at hget
  refine ⟨h.queued.set_away ht nofun nofun nofun hctx, ?_, ?_⟩
  · refine h.chained.turn ht hx hrow (fun i hi _ => ?_) (fun c hd => ?_) ?_ (fun {c} hd => ?_)
      fun {s' ctx} hc => ⟨ctx, (hctx s').symm.trans hc, rfl⟩
    · exact (hget i).trans (if_neg (hi top (by simp [hc])))
    · rw [hchain] at hd
      cases hd
    · exact .of_ended hchain hout
    · rw [hc] at hd
      rw [List.mem_singleton.mp hd]
      exact .inr ⟨_, (hget _).trans (if_pos rfl), hf y⟩
  · have hset : w.Grouped (l.set t s .ended) (x.group.map GroupRef.id) := by
      refine h.grouped.set ht nofun nofun nofun (fun {g z} _ hz hm => ?_) nofun
      obtain ⟨x₀, ref, hx₀, hg, rfl⟩ := h.grouped.member hz hm
      rw [hx] at hx₀
      cases hx₀
      rw [hg, Option.map_some]
    exact hset.same (fun _ => by rw [hgroups]) (map_group_of_row hx hrow hgroup) hsize
      fun {s' ctx} hc => ⟨ctx, (hctx s').trans hc, rfl⟩

theorem Standing.After.of_set {l' : Standing} {s t : Nat} {p : Place}
    {top : CoroutineRef} (h : w.Queued l)
    (ht : l t = some (s, .current top)) (hl : l'.After (l.set t s p) s) (hp : ∀ c, p ≠ .current c) :
    l'.After l s ∧ l'.Calm s := by
  refine ⟨hl.trans (.set (fun s' q e => ?_) hp), fun u c hu => ?_⟩
  · rw [ht] at e
    cases e
    rfl
  · have hu := hl.calm u c hu
    rw [Standing.set_apply] at hu
    split at hu
    · cases hu
      exact hp c rfl
    · next e => exact e (h.alone hu ht)

/-- A task that has ended is out of its run, and so is its group if no other member is left. -/
theorem Sound.finish {s t : Nat} {x : Task} {top : CoroutineRef} {f : Handle β → Handle β}
    (h : w.Sound l base none) (outcome : Outcome) (ht : l t = some (s, .current top))
    (hx : w.tasks.get? t = some x) (hc : x.chain = [top])
    (hf : ∀ y, (f y).status.isFinished = true)
    (hrow : ∀ u, w'.tasks.get? u = if u = t then some { x with chain := [] } else w.tasks.get? u)
    (hsize : w'.tasks.size = w.tasks.size) (hgroups : w'.groups = w.groups)
    (hhandles : w'.handles = ((w.modifyHandle top f).release top).handles)
    (hctx : ∀ s', w'.context? s' = w.context? s') :
    ∃ w'' l', w'.finish s t outcome = (.ok (), w'') ∧ w''.Sound l' base none ∧
      l'.After (l.set t s .ended) s := by
  have hx' : w'.tasks.get? t = some { x with chain := [] } := (hrow t).trans (if_pos rfl)
  have hrow' : ∀ u, (w'.modifyTask t (·.ended outcome)).tasks.get? u =
      if u = t then some (Task.ended { x with chain := [] } outcome) else w.tasks.get? u :=
    get?_modifyTask_of_rows hrow _
  have hsound : (w'.modifyTask t (·.ended outcome)).Sound (l.set t s .ended) base
      (x.group.map GroupRef.id) :=
    h.ends ht hx hc hf hrow' rfl rfl rfl ((size_tasks_modifyTask ..).trans hsize) hgroups hhandles
      hctx
  have hsound' : ((w'.modifyTask t (·.ended outcome)).emit s
      (.taskEnd x.id x.index outcome.isOk)).Sound (l.set t s .ended) base
        (x.group.map GroupRef.id) := hsound.of_tables rfl rfl rfl fun _ => rfl
  cases hg : x.group with
  | none =>
      rw [hg] at hsound'
      exact ⟨_, _, finish_root hx' hg, hsound', .refl ..⟩
  | some ref =>
      rw [hg] at hsound'
      rw [finish_member hx' hg]
      obtain ⟨y, u, q, hy, hm, ha, hlt, hu⟩ := h.grouped.parent ht hx hg
      -- a group with a member that has not ended is waited for
      have hq : q = .blocked ref.id := by
        by_contra hn
        have he := h.grouped.settled hy ha hu hn t hm
        rw [ht] at he
        cases he
      refine hsound'.closeGroup (t := u) ?_ (by rw [groups_emit, groups_modifyTask, hgroups, hy]) ha
        (h.grouped.complete hy ha nofun)
      rw [Standing.set_of_ne _ _ _ hlt.ne, hu, hq]

/-- The coroutine that has ended gives way to the one that waits for it, or its task ends. -/
theorem Sound.unwind {s t : Nat} {x : Task} {top : CoroutineRef} {rest : List CoroutineRef}
    {f : Handle β → Handle β} {outcome : Outcome} (h : w.Sound l base none)
    (ht : l t = some (s, .current top)) (hx : w.tasks.get? t = some x) (hc : x.chain = top :: rest)
    (hf : ∀ y, (f y).status.isFinished = true) :
    ∃ w' l', (w.modifyHandle top f).unwind s t top outcome = (.ok (), w') ∧ w'.Sound l' base none ∧
      l'.After l s ∧ l'.Calm s := by
  let w₁ := ((w.modifyHandle top f).modifyTask t fun x => { x with chain := x.chain.tail }).release top
  have hrow : ∀ u, w₁.tasks.get? u = if u = t then some { x with chain := rest } else w.tasks.get? u := by
    intro u
    refine (get?_modifyTask_of_get? (w := w.modifyHandle top f) hx _ u).trans ?_
    rw [hc]
    rfl
  have hself : w₁.tasks.get? t = some { x with chain := rest } := (hrow t).trans (if_pos rfl)
  cases rest with
  | nil =>
      have hres : (w.modifyHandle top f).unwind s t top outcome = w₁.finish s t outcome := by
        show (if ((w₁.tasks.get? t).map fun x => x.chain.isEmpty).getD true then _ else _) = _
        rw [hself]
        rfl
      obtain ⟨w', l', he, hs, ha⟩ := h.finish outcome ht hx hc hf hrow
        (size_tasks_modifyTask ..) rfl rfl fun _ => rfl
      exact ⟨w', l', hres.trans he, hs, Standing.After.of_set h.queued ht ha nofun⟩
  | cons d rest =>
      have hres : (w.modifyHandle top f).unwind s t top outcome =
          (.ok (), w₁.deliver s t outcome.input) := by
        show (if ((w₁.tasks.get? t).map fun x => x.chain.isEmpty).getD true then _ else _) = _
        rw [hself]
        rfl
      refine ⟨_, l.set t s .ready, hres, ?_, Standing.After.of_set h.queued ht (.refl ..) nofun⟩
      exact h.handOver { x with
        chain := d :: rest, inbox := outcome.input, state := .suspended } ht hx hc hf
        (get?_modifyTask_of_rows hrow _) rfl rfl rfl rfl (by cases outcome <;> rfl)
        ((size_tasks_modifyTask ..).trans (size_tasks_modifyTask ..)) rfl rfl fun s' =>
          context?_deliver ..

/-! ### Waiting -/

/-- A task that awaits a group that nobody has awaited waits for its members. -/
theorem Sound.startGroup {s t : Nat} {x : Task} {y : Group} {top : CoroutineRef}
    {rest : List CoroutineRef} {frame : Frame} {g : GroupRef} (h : w.Sound l base none)
    (ht : l t = some (s, .current top)) (hx : w.tasks.get? t = some x) (hc : x.chain = top :: rest)
    (hy : w.groups.get? g.id = some y) (hfree : y.awaitedBy = none)
    (hrow : ∀ u, w'.tasks.get? u = if u = t then some { x with state := .suspended }
      else w.tasks.get? u)
    (hsize : w'.tasks.size = w.tasks.size) (hgroups : w'.groups = w.groups)
    (hhandles : w'.handles = (w.modifyHandle top (·.left frame (.await (.group g)))).handles)
    (hctx : ∀ s', w'.context? s' = w.context? s') :
    ∃ w'' l', w'.startGroup s t g = (.ok (), w'') ∧ w''.Sound l' base none ∧
      l'.After (l.set t s (.blocked g.id)) s := by
  obtain ⟨hh, rest', z, hc', hz, -, ho, -, hne⟩ := h.chained.exists_top ht hx
  rw [hc] at hc'
  cases hc'
  have hget := get?_modifyHandle_of_get? hz (·.left frame (.await (.group g)))
  rw [← hhandles] at hget
  let w₂ := w'.opening s t g
  have hgroups₂ : ∀ i, w₂.groups.get? i =
      if i = g.id then some { y with awaitedBy := some t } else w.groups.get? i := by
    rw [← hgroups]
    exact get?_opening_of_get? (hgroups ▸ hy)
  have hself : w₂.groups.get? g.id = some { y with awaitedBy := some t } :=
    (hgroups₂ _).trans (if_pos rfl)
  have hsound : w₂.Sound (l.set t s (.blocked g.id)) base (some g.id) := by
    refine ⟨h.queued.set_away ht nofun nofun nofun hctx, ?chained, ?grouped⟩
    case chained =>
      refine h.chained.turn ht hx hrow (fun i hi _ => ?_) (fun c hd => .inl hd) ?_
        (fun hd => .inl hd) fun {s' ctx} hc => ⟨ctx, (hctx s').symm.trans hc, rfl⟩
      · exact (hget i).trans (if_neg (hi top (by simp [hc])))
      · exact hh.move_head nofun nofun rfl rfl rfl hc hz hget rfl
          ⟨g, rfl, _, (hget _).trans (if_pos rfl), rfl, rfl⟩
    case grouped =>
      have hsame : w'.Grouped l none := h.grouped.same (fun _ => by rw [hgroups])
        (map_group_of_row hx hrow rfl) hsize fun {s' ctx} hc => ⟨ctx, (hctx s').trans hc, rfl⟩
      refine hsame.start ht ?_ (hgroups ▸ hy) hfree (fun i => ?_) rfl fun _ => rfl
      · rw [hsize]
        exact h.lt_size (by simp [ht])
      · rw [hgroups₂, hgroups]
  obtain ⟨l', y', hs, ht', hl, hy', hlen, ha, htasks⟩ :=
    hsound.startMembers 0 y.handles (Standing.set_self ..) hself rfl
  have hres : w'.startGroup s t g = (w₂.startMembers s g 0 y.handles).closeGroup s g :=
    startGroup_of_get? (hgroups ▸ hy)
  obtain ⟨w'', l'', he, hs', hl'⟩ := hs.closeGroup ht' hy' ha (by
    rw [htasks, hlen]
    simp [h.grouped.idle hy hfree])
  exact ⟨w'', l'', hres.trans he, hs', hl'.trans hl⟩

/-- A task that awaits a coroutine comes back to the queue with the coroutine in its chain, or with
the failure of the claim. -/
theorem suspend_coroutine {s t : Nat} {c : CoroutineRef} {w₁ w₂ : World β σ}
    {failure : Option Failure} (hw : w.modifyTask t (fun x => { x with state := .suspended }) = w₁)
    (hcl : w₁.claim c (w₁.taskId t) = (failure, w₂)) :
    ∃ w₃, w₃ = w₂.modifyTask t (fun x => match failure with
        | some f => { x with inbox := .throw (.ofFailure f) }
        | none => { x with chain := c :: x.chain }) ∧
      w.suspend s t (.coroutine c) =
        (.ok (), (w₃.emit s (.taskSuspend (w₃.taskId t) c.name)).enqueue s t) := by
  subst hw
  refine ⟨_, rfl, ?_⟩
  cases failure <;> simp only [suspend, hcl]

/-- A task that awaits a group waits for the members; the group must not have been awaited. -/
theorem Sound.absorb_group {s t : Nat} {x : Task} {top : CoroutineRef} {rest : List CoroutineRef}
    (h : w.Sound l base none) (ht : l t = some (s, .current top)) (hx : w.tasks.get? t = some x)
    (hc : x.chain = top :: rest) (frame : Frame) (g : GroupRef) :
    ∃ w' l', (w.modifyHandle top (·.left frame (.await (.group g)))).absorb s t top
        (.await (.group g)) = (.ok (), w') ∧ w'.Sound l' base none ∧ l'.After l s ∧ l'.Calm s := by
  let v := w.modifyHandle top (·.left frame (.await (.group g)))
  let w₁ := v.modifyTask t fun x => { x with state := .suspended }
  have hrow : ∀ u, w₁.tasks.get? u = if u = t then some { x with state := .suspended }
      else w.tasks.get? u := get?_tasks_suspended hx _
  have hsize : w₁.tasks.size = w.tasks.size := size_tasks_modifyTask ..
  cases htaken : v.groupTaken g with
  | true =>
      refine ⟨w₁.deliver s t (.throw (.ofFailure .groupAwaited)), l.set t s .ready,
        suspend_of_taken htaken s t, ?_, Standing.After.of_set h.queued ht (.refl ..) nofun⟩
      exact h.refuse { x with
        state := .suspended, inbox := .throw (.ofFailure .groupAwaited) } ht hx hc
        (get?_modifyTask_of_rows hrow _) rfl rfl rfl rfl rfl ((size_tasks_modifyTask ..).trans hsize)
        rfl rfl fun s' => context?_deliver ..
  | false =>
      obtain ⟨y, hy, ha⟩ := groupTaken_eq_false_iff.mp htaken
      obtain ⟨w', l', he, hs, hl⟩ := h.startGroup ht hx hc hy ha hrow hsize rfl rfl fun _ => rfl
      exact ⟨w', l', (suspend_of_free htaken s t).trans he, hs,
        Standing.After.of_set h.queued ht hl nofun⟩

/-- A task that awaits a coroutine claims it, and goes to the end of the queue either way. -/
theorem Sound.absorb_coroutine {s t : Nat} {x : Task} {top : CoroutineRef}
    {rest : List CoroutineRef} (h : w.Sound l base none) (ht : l t = some (s, .current top))
    (hx : w.tasks.get? t = some x) (hc : x.chain = top :: rest) (frame : Frame) (c : CoroutineRef) :
    ∃ w' l', (w.modifyHandle top (·.left frame (.await (.coroutine c)))).absorb s t top
        (.await (.coroutine c)) = (.ok (), w') ∧ w'.Sound l' base none ∧ l'.After l s ∧
      l'.Calm s := by
  obtain ⟨-, rest', y, -, hy, -⟩ := h.chained.exists_top ht hx
  let w₁ := (w.modifyHandle top (·.left frame (.await (.coroutine c)))).modifyTask t
    fun x => { x with state := .suspended }
  have hrow : ∀ u, w₁.tasks.get? u = if u = t then some { x with state := .suspended }
      else w.tasks.get? u := get?_tasks_suspended hx _
  have hsize : w₁.tasks.size = w.tasks.size := size_tasks_modifyTask ..
  have hself := (hrow t).trans (if_pos rfl)
  rcases hcl : w₁.claim c (w₁.taskId t) with ⟨failure, w₂⟩
  obtain ⟨w₃, hw₃, he⟩ := suspend_coroutine (s := s)
    (w := w.modifyHandle top (·.left frame (.await (.coroutine c)))) rfl hcl
  refine ⟨_, l.set t s .ready, he, ?_, Standing.After.of_set h.queued ht (.refl ..) nofun⟩
  rw [taskId_of_get? hself] at hcl
  cases failure with
  | some f =>
      obtain rfl := claim_eq_some hcl
      subst hw₃
      exact h.refuse { x with state := .suspended, inbox := .throw (.ofFailure f) } ht hx hc
        (get?_modifyTask_of_rows hrow _) rfl rfl rfl rfl rfl ((size_tasks_modifyTask ..).trans hsize)
        rfl rfl fun s' => context?_enqueue ..
  | none =>
      obtain ⟨z, hz, hs, hzo, rfl⟩ := claim_eq_none hcl
      subst hw₃
      -- the coroutine that was resumed has an owner, so the one that was claimed is another
      have hfree : w.Free c.id := by
        rw [handles_modifyTask, get?_modifyHandle_of_get? hy] at hz
        split at hz
        · cases hz
          cases hs
        · exact ⟨z, hz, hs, hzo⟩
      exact h.chain { x with state := .suspended, chain := c :: x.chain } ht hx hc hfree
        (get?_modifyTask_of_rows (v := w₁.modifyHandle c _) hrow _) rfl rfl rfl rfl rfl
        ((size_tasks_modifyTask ..).trans hsize) rfl rfl fun s' => context?_enqueue ..

/-- **A task goes on from any step that its coroutine ends a resume with.** -/
theorem Sound.absorb {s t : Nat} {top : CoroutineRef} (h : w.Sound l base none)
    (ht : l t = some (s, .current top)) (frame : Frame) (step : Step) :
    ∃ w' l', (w.modifyHandle top (·.left frame step)).absorb s t top step = (.ok (), w') ∧
      w'.Sound l' base none ∧ l'.After l s ∧ l'.Calm s := by
  obtain ⟨x, hx, -⟩ := h.chained.holds ht
  obtain ⟨-, rest, -, hc, -⟩ := h.chained.exists_top ht hx
  cases step with
  | ret v => exact h.unwind ht hx hc fun _ => rfl
  | raise r => exact h.unwind ht hx hc fun _ => rfl
  | await target =>
      cases target with
      | group g => exact h.absorb_group ht hx hc frame g
      | coroutine c => exact h.absorb_coroutine ht hx hc frame c

end World

end Coroutines
