import Coroutines.Proofs.Joining.Orphans

/-!
# What a turn leaves behind

The rows of the tables after a turn, as far as exceptions are concerned.  The task of the turn goes on
with the exception that its coroutine raised, or with one that no coroutine raised, unless it comes to
await a group (`GoesOn`).  The tasks that are new have been handed nothing (`Fresh`); they are the members
of the group that the turn opened (`Turn.taskOf_cases`).
-/

namespace Coroutines

namespace World

variable {β σ : Type} {w w' : World β σ} {s t u : Nat}

/-! ### The task of the turn -/

/-- After a turn that ended with a step its task has the outcome of its coroutine, or is back in the
queue; the exception that it is handed then was raised by the coroutine, or by none. -/
def GoesOn (w : World β σ) (s t : Nat) (step : Step) : Prop :=
  ∃ x, w.tasks.get? t = some x ∧
    (x.outcome = none ∧ w.InQueue s t ∧ (∀ r, x.inbox = .throw r → step = .raise r ∨
        (∃ f, r = .ofFailure f) ∧ ∃ target, step = .await target) ∨
      ∃ o, step.outcome? = some o ∧ x.outcome = some o)

theorem inQueue_enqueue (hs : ∃ ctx, w.context? s = some ctx) (t : Nat) :
    (w.enqueue s t).InQueue s t := by
  obtain ⟨ctx, hctx⟩ := hs
  refine ⟨{ ctx with ready := ctx.ready ++ [t] }, ?_, by simp⟩
  rw [context?_enqueue, if_pos rfl, hctx]
  rfl

/-- A coroutine that has ended gives way to the next one of the chain. -/
theorem goesOn_unwind {x : Task} {top : CoroutineRef} {rest : List CoroutineRef} {step : Step}
    {o : Outcome} (hx : w.tasks.get? t = some x) (hc : x.chain = top :: rest) (ho : x.outcome = none)
    (hs : ∃ ctx, w.context? s = some ctx) (hstep : step.outcome? = some o) :
    (w.unwind s t top o).2.GoesOn s t step := by
  have hrow := get?_tasks_popped hx hc top
  simp only [unwind, hrow, Option.map_some, Option.getD_some]
  cases rest with
  | nil =>
      obtain ⟨x', hx', ho'⟩ := get?_tasks_finish (s := s) hrow o
      exact ⟨x', hx', .inr ⟨o, hstep, ho'⟩⟩
  | cons d rest =>
      refine ⟨_, (get?_modifyTask_of_get? hrow _ t).trans (if_pos rfl),
        .inl ⟨ho, inQueue_enqueue hs t, fun r hr => ?_⟩⟩
      cases step with
      | await target => cases hstep
      | ret v =>
          cases hstep
          cases hr
      | raise r' =>
          cases hstep
          cases hr
          exact .inl rfl

/-- A coroutine that awaits another goes on after it, or with the failure of the claim. -/
theorem goesOn_suspend {x : Task} (c : CoroutineRef) (hx : w.tasks.get? t = some x)
    (ho : x.outcome = none) (hi : x.inbox = .start) (hs : ∃ ctx, w.context? s = some ctx) :
    (w.suspend s t (.coroutine c)).2.GoesOn s t (.await (.coroutine c)) := by
  have hrow : (w.modifyTask t fun x => { x with state := .suspended }).tasks.get? t =
      some { x with state := .suspended } := (get?_modifyTask_of_get? hx _ t).trans (if_pos rfl)
  rcases hcl : (w.modifyTask t fun x => { x with state := .suspended }).claim c
    ((w.modifyTask t fun x => { x with state := .suspended }).taskId t) with ⟨failure, w₂⟩
  obtain ⟨w₃, rfl, he⟩ := suspend_coroutine (s := s) rfl hcl
  have hclaim := Touches.claim (T := fun _ => False) (A := fun _ => False) (G := fun _ => False)
    (w.modifyTask t fun x => { x with state := .suspended }) c
    ((w.modifyTask t fun x => { x with state := .suspended }).taskId t)
  rw [hcl] at hclaim
  rw [he]
  refine ⟨_, (get?_modifyTask_of_get? (hclaim.same id id hrow) _ t).trans (if_pos rfl),
    .inl ⟨?_, inQueue_enqueue (hclaim.active hs) t, fun r hr => ?_⟩⟩
  · cases failure <;> exact ho
  · cases failure with
    | none =>
        have hr : x.inbox = .throw r := hr
        rw [hi] at hr
        cases hr
    | some f =>
        cases hr
        exact .inr ⟨⟨f, rfl⟩, _, rfl⟩

theorem goesOn_absorb {x : Task} {top : CoroutineRef} {rest : List CoroutineRef} {step : Step}
    (hx : w.tasks.get? t = some x) (hc : x.chain = top :: rest) (ho : x.outcome = none)
    (hi : x.inbox = .start) (hs : ∃ ctx, w.context? s = some ctx)
    (hgroup : ∀ g, step = .await (.group g) → w.groupTaken g = true) :
    (w.absorb s t top step).2.GoesOn s t step := by
  cases step with
  | ret v => exact goesOn_unwind (o := .ok v) hx hc ho hs rfl
  | raise r => exact goesOn_unwind (o := .error r) hx hc ho hs rfl
  | await target =>
      cases target with
      | coroutine c => exact goesOn_suspend c hx ho hi hs
      | group g =>
          have hrow : (w.modifyTask t fun x => { x with state := .suspended }).tasks.get? t =
              some { x with state := .suspended } := (get?_modifyTask_of_get? hx _ t).trans (if_pos rfl)
          rw [absorb, suspend_of_taken (hgroup g rfl)]
          refine ⟨_, (get?_modifyTask_of_get? hrow _ t).trans (if_pos rfl),
            .inl ⟨ho, inQueue_enqueue hs t, fun r hr => .inr ⟨⟨.groupAwaited, ?_⟩, _, rfl⟩⟩⟩
          cases hr
          rfl

/-! ### New tasks -/

/-- A task that was just made is in the queue to start, or its coroutine was refused. -/
def Fresh (w : World β σ) (s u : Nat) : Prop :=
  ∃ x, w.tasks.get? u = some x ∧ x.inbox = .start ∧
    (x.outcome = none ∧ w.InQueue s u ∨ ∃ f, x.outcome = some (.error (.ofFailure f)))

theorem Fresh.of_touches {T A G : Nat → Prop} (h : w.Fresh s u) (ht : Touches T A G w w') (hT : ¬ T u)
    (hA : ¬ A u) : w'.Fresh s u := by
  obtain ⟨x, hx, hi, ho⟩ := h
  exact ⟨x, ht.same hT hA hx, hi, ho.imp_left fun ho => ⟨ho.1, ht.inQueue ho.2⟩⟩

/-- A row that was not there before is not there, or that of a new task. -/
def Adds (w : World β σ) (s : Nat) (w' : World β σ) : Prop :=
  ∀ ⦃u⦄, w.tasks.get? u = none → w'.tasks.get? u = none ∨ w'.Fresh s u

theorem get?_tasks_modifyTask_eq_none {f : Task → Task} :
    (w.modifyTask t f).tasks.get? u = none ↔ w.tasks.get? u = none := by
  rw [get?_tasks_modifyTask]
  split <;> simp

theorem adds_startMember (w : World β σ) (g : GroupRef) (index : Nat) (c : CoroutineRef)
    (hs : ∃ ctx, w.context? s = some ctx) : w.Adds s (w.startMember s g index c) := by
  obtain ⟨ctx, hctx⟩ := hs
  obtain ⟨id, w₁, he, hrow, -, -, -, hcontext⟩ := w.addMember_spec s g index c
  intro u hu
  by_cases e : u = w.tasks.size
  · subst e
    refine .inr ?_
    have hself := (hrow w.tasks.size).trans (if_pos rfl)
    rcases hcl : w₁.claim c (w₁.taskId w.tasks.size) with ⟨- | f, w₂⟩
    · have hres : w.startMember s g index c = w₂.enqueue s w.tasks.size := by
        simp only [startMember, he, hcl]
      obtain ⟨x, -, -, -, hw₂⟩ := claim_eq_none hcl
      rw [hres, hw₂]
      refine ⟨_, hself, rfl, .inl ⟨rfl, { ctx with ready := ctx.ready ++ [w.tasks.size] }, ?_, by simp⟩⟩
      rw [context?_enqueue, if_pos rfl]
      exact congrArg _ ((hcontext s).trans hctx)
    · have hres : w.startMember s g index c = w₂.modifyTask w.tasks.size fun x =>
          { x with chain := [], state := .failed, outcome := some (.error (.ofFailure f)) } := by
        simp only [startMember, he, hcl]
      obtain rfl := claim_eq_some hcl
      rw [hres]
      exact ⟨_, (get?_modifyTask_of_get? hself _ _).trans (if_pos rfl), rfl, .inr ⟨f, rfl⟩⟩
  · refine .inl ?_
    have hother : w₁.tasks.get? u = none := (hrow u).trans ((if_neg e).trans hu)
    have hclaim := tasks_claim w₁ c (w₁.taskId w.tasks.size)
    simp only [startMember, he]
    split
    · next e =>
        rw [e] at hclaim
        exact get?_tasks_modifyTask_eq_none.mpr (hclaim ▸ hother)
    · next e =>
        rw [e] at hclaim
        show _ = none
        rw [tasks_enqueue, hclaim]
        exact hother

theorem adds_startMembers (w : World β σ) (g : GroupRef) (index : Nat) (cs : List CoroutineRef)
    (hs : ∃ ctx, w.context? s = some ctx) : w.Adds s (w.startMembers s g index cs) := by
  induction cs generalizing w index with
  | nil => exact fun _ => .inl
  | cons c rest ih =>
      intro u hu
      have hfirst := Touches.startMember (T := fun _ => False) (A := fun _ => False) (G := (· = g.id)) w s
        rfl index c
      have hrest := Touches.startMembers (T := fun _ => False) (A := fun _ => False) (G := (· = g.id))
        (w.startMember s g index c) s rfl (index + 1) rest
      rcases adds_startMember w g index c hs hu with hnone | hfresh
      · exact ih _ (index + 1) (hfirst.active hs) hnone
      · exact .inr (hfresh.of_touches hrest id id)

/-- The tasks that a group gets when its members are started are new. -/
theorem tasks_startMembers {g : GroupRef} {index i : Nat} {cs : List CoroutineRef} {y : Group}
    (hy : (w.startMembers s g index cs).groups.get? i = some y) : ∃ x, w.groups.get? i = some x ∧
      (g.id ≠ i → y = x) ∧ ∀ u ∈ y.tasks, u ∈ x.tasks ∨ w.tasks.get? u = none := by
  induction cs generalizing w index with
  | nil => exact ⟨y, hy, fun _ => rfl, fun _ => .inl⟩
  | cons c rest ih =>
      obtain ⟨x, hx, hsame, htasks⟩ := ih hy
      have hfirst := Touches.startMember (T := fun _ => False) (A := fun _ => False) (G := (· = g.id)) w s
        rfl index c
      have hnew : ∀ {u}, (w.startMember s g index c).tasks.get? u = none → w.tasks.get? u = none := by
        intro u hu
        cases hw : w.tasks.get? u with
        | none => rfl
        | some z => cases (hfirst.same id id hw).symm.trans hu
      rw [get?_groups_startMember] at hx
      split at hx
      · next e =>
          obtain ⟨z, hz, rfl⟩ := Option.map_eq_some_iff.mp hx
          refine ⟨z, hz, fun h => (h e).elim, fun u hu => ?_⟩
          rcases htasks u hu with hmem | hnone
          · rcases List.mem_append.mp hmem with hmem | hmem
            · exact .inl hmem
            · rw [List.mem_singleton.mp hmem]
              exact .inr (Table.get?_size w.tasks)
          · exact .inr (hnew hnone)
      · exact ⟨x, hx, hsame, fun u hu => (htasks u hu).imp_right hnew⟩

/-! ### Turns that make no tasks -/

@[simp] theorem size_tasks_closeGroup (w : World β σ) (s : Nat) (g : GroupRef) :
    (w.closeGroup s g).2.tasks.size = w.tasks.size := by
  unfold closeGroup
  split
  · unfold settleGroup
    split
    · rfl
    · have hsettle : (w.settle g).2.tasks = w.tasks := by
        unfold settle
        split <;> rfl
      split <;>
        · next e =>
            rw [e] at hsettle
            simpa using congrArg Table.size hsettle
  · rfl

@[simp] theorem size_tasks_finish (w : World β σ) (s t : Nat) (o : Outcome) :
    (w.finish s t o).2.tasks.size = w.tasks.size := by
  simp only [finish]
  split
  · simp
  · split <;> simp

@[simp] theorem size_tasks_unwind (w : World β σ) (s t : Nat) (top : CoroutineRef) (o : Outcome) :
    (w.unwind s t top o).2.tasks.size = w.tasks.size := by
  simp only [unwind]
  split
  · rw [size_tasks_finish]
    exact size_tasks_modifyTask ..
  · exact (size_tasks_modifyTask ..).trans (size_tasks_modifyTask ..)

@[simp] theorem size_tasks_suspend_coroutine (w : World β σ) (s t : Nat) (c : CoroutineRef) :
    (w.suspend s t (.coroutine c)).2.tasks.size = w.tasks.size := by
  simp [suspend]

/-- A turn makes no tasks, unless it opens a group. -/
theorem size_tasks_absorb {top : CoroutineRef} {step : Step}
    (hgroup : ∀ g, step = .await (.group g) → w.groupTaken g = true) :
    (w.absorb s t top step).2.tasks.size = w.tasks.size := by
  cases step with
  | ret v => exact size_tasks_unwind ..
  | raise r => exact size_tasks_unwind ..
  | await target =>
      cases target with
      | coroutine c => exact size_tasks_suspend_coroutine ..
      | group g =>
          rw [absorb, suspend_of_taken (hgroup g rfl)]
          exact (size_tasks_modifyTask ..).trans (size_tasks_modifyTask ..)

theorem adds_of_size (h : w'.tasks.size = w.tasks.size) : w.Adds s w' := by
  intro u hu
  rw [Table.get?_eq_none_iff] at hu ⊢
  exact .inl (h ▸ hu)

theorem adds_startGroup {x : Task} (g : GroupRef) (hx : w.tasks.get? t = some x)
    (hs : ∃ ctx, w.context? s = some ctx) : w.Adds s (w.startGroup s t g).2 := by
  intro u hu
  rw [startGroup_eq]
  generalize hcs : ((w.groups.get? g.id).map Group.handles).getD [] = cs
  rcases adds_startMembers (w.opening s t g) g 0 cs hs hu with hnone | hfresh
  · exact adds_of_size (size_tasks_closeGroup ..) hnone
  · -- the task that awaits the group is not new
    have hne : ¬ u = t := fun e => by
      rw [e, hx] at hu
      cases hu
    refine .inr (hfresh.of_touches (T := fun _ => False) (A := (· = t)) (G := fun _ => False)
      (.closeGroup _ fun {y a} hy ha => .inr ?_) id hne)
    have hbind := awaitedBy_startMembers (w.opening s t g) s g 0 cs g.id
    rw [hy, Option.bind_some, ha, get?_groups_opening, if_pos rfl] at hbind
    obtain ⟨z, hz, hza⟩ := Option.bind_eq_some_iff.mp hbind.symm
    obtain ⟨z', -, rfl⟩ := Option.map_eq_some_iff.mp hz
    exact (Option.some.inj hza).symm

/-- A turn makes tasks for the members of the group that it opens. -/
theorem adds_absorb {x : Task} (hx : w.tasks.get? t = some x) (top : CoroutineRef) (step : Step)
    (hs : ∃ ctx, w.context? s = some ctx) : w.Adds s (w.absorb s t top step).2 := by
  by_cases hgroup : ∀ g, step = .await (.group g) → w.groupTaken g = true
  · exact adds_of_size (size_tasks_absorb hgroup)
  · push Not at hgroup
    obtain ⟨g, rfl, hfree⟩ := hgroup
    intro u hu
    rw [absorb, suspend_of_free (Bool.eq_false_iff.mpr hfree)]
    exact adds_startGroup g ((get?_modifyTask_of_get? hx _ t).trans (if_pos rfl)) hs
      (get?_tasks_modifyTask_eq_none.mpr hu)

/-! ### Groups -/

@[simp] theorem groups_unwind (w : World β σ) (s t : Nat) (top : CoroutineRef) (o : Outcome) :
    (w.unwind s t top o).2.groups = w.groups := by
  simp only [unwind]
  split
  · simp only [finish]
    split
    · rfl
    · split
      · rfl
      · exact (rows_closeGroup _ s _).1
  · rfl

/-- A group that is started has no members but new ones. -/
theorem groups_startGroup {ref : GroupRef} {g : Nat} {y : Group}
    (hidle : ∀ {x}, w.groups.get? ref.id = some x → x.tasks = [])
    (hy : (w.startGroup s t ref).2.groups.get? g = some y) :
    w.groups.get? g = some y ∨ y.awaitedBy = some t ∧ ∀ u ∈ y.tasks, w.tasks.get? u = none := by
  rw [startGroup_eq, (rows_closeGroup ..).1] at hy
  have hawaited := congrArg (Option.bind · Group.awaitedBy) hy
  simp only [awaitedBy_startMembers, get?_groups_opening, Option.bind_some] at hawaited
  obtain ⟨x, hx, hsame, hnew⟩ := tasks_startMembers hy
  rw [get?_groups_opening] at hx
  split at hx
  · next e =>
      obtain ⟨z, hz, rfl⟩ := Option.map_eq_some_iff.mp hx
      rw [if_pos e, hz] at hawaited
      refine .inr ⟨hawaited.symm, fun u hu => (hnew u hu).resolve_left fun hmem => ?_⟩
      have hmem : u ∈ z.tasks := hmem
      rw [hidle (e ▸ hz)] at hmem
      cases hmem
  · next e =>
      rw [hsame e]
      exact .inl hx

/-- A group stays in a turn, or it is the one that the turn opened, whose members are new. -/
theorem groups_absorb {g : Nat} {y : Group} {top : CoroutineRef} {step : Step}
    (hidle : ∀ {g x}, w.groups.get? g = some x → x.awaitedBy = none → x.tasks = [])
    (hy : (w.absorb s t top step).2.groups.get? g = some y) :
    w.groups.get? g = some y ∨ y.awaitedBy = some t ∧ ∀ u ∈ y.tasks, w.tasks.get? u = none := by
  cases step with
  | ret v => exact .inl (groups_unwind w s t top (.ok v) ▸ hy)
  | raise r => exact .inl (groups_unwind w s t top (.error r) ▸ hy)
  | await target =>
      cases target with
      | coroutine c =>
          rcases hcl : (w.modifyTask t fun x => { x with state := .suspended }).claim c
            ((w.modifyTask t fun x => { x with state := .suspended }).taskId t) with ⟨failure, w₂⟩
          obtain ⟨w₃, rfl, he⟩ := suspend_coroutine (s := s) rfl hcl
          rw [absorb, he] at hy
          cases failure with
          | none =>
              obtain ⟨z, -, -, -, rfl⟩ := claim_eq_none hcl
              exact .inl hy
          | some f =>
              obtain rfl := claim_eq_some hcl
              exact .inl hy
      | group ref =>
          simp only [absorb, suspend] at hy
          split at hy
          · exact .inl hy
          · next hfree =>
              have hopened : ∀ {x}, w.groups.get? ref.id = some x → x.tasks = [] := fun {x} hx => by
                have hfree : ¬ w.groupTaken ref = true := hfree
                exact hidle hx (by simpa [groupTaken, hx] using hfree)
              obtain hsame | ⟨ha, hnew⟩ := groups_startGroup
                (w := w.modifyTask t fun x => { x with state := .suspended }) hopened hy
              · exact .inl hsame
              · exact .inr ⟨ha, fun u hu => (get?_tasks_modifyTask_eq_none (w := w)).mp (hnew u hu)⟩

/-! ### The tasks of the run -/

namespace Turn

variable {l : Standing} {base : Nat → Start} {bodies : Bodies β σ} {depth root : Nat} {x : Task}
  {top : CoroutineRef} {frame : Frame} {step : Step} {v : World β σ}

theorem active (h : Turn bodies depth s t l base w x top frame step v w') :
    ∃ ctx, (v.modifyHandle top (·.left frame step)).context? s = some ctx :=
  h.sound.queued.active (t := t) (Standing.set_self ..)

/-- A task of the run was one before the turn, or it is new. -/
theorem taskOf_cases (h : Turn bodies depth s t l base w x top frame step v w') {c : CoroutineRef}
    {l' : Standing} (hp : w.Poised s root c l base) (hp' : w'.Poised s root c l' base)
    (hu : w'.TaskOf root u) : w.TaskOf root u ∨ v.tasks.get? u = none ∧ w'.Fresh s u := by
  obtain ⟨ctx, hc⟩ := hp.active
  obtain rfl := hp.root_eq hc
  induction hu with
  | root => exact .inl .root
  | @member a u g y hparent hy ha hmem ih =>
      have hw' : w' = ((v.modifyHandle top (·.left frame step)).absorb s t top step).2 := by
        rw [h.absorbed]
      obtain hsame | ⟨-, hnew⟩ := groups_absorb (w := v.modifyHandle top (·.left frame step))
        h.sound.grouped.idle (hw' ▸ hy)
      · -- the group was awaited before, by a task that was there
        rcases ih with hold | ⟨hnone, -⟩
        · obtain ⟨p, hstand⟩ := hp.sound.standing_of_taskOf hc hold
          obtain ⟨p', hstand'⟩ := Standing.exists_set (.current top) h.ready hstand
          obtain ⟨q, hq⟩ := h.sound.grouped.together hsame ha hstand' hmem
          obtain ⟨q', hq'⟩ := Standing.exists_of_set (.current top) h.ready hq
          exact .inl (hp.sound.taskOf_of_standing hc hq')
        · exact absurd (h.sound.grouped.awaiter hsame ha)
            (Nat.not_lt.mpr (Table.get?_eq_none_iff.mp hnone))
      · refine .inr ⟨hnew u hmem, ?_⟩
        rcases adds_absorb (w := v.modifyHandle top (·.left frame step)) h.mine top step h.active
          (hnew u hmem) with hnone | hfresh
        · obtain ⟨ctx', hc'⟩ := hp'.active
          have htask : w'.TaskOf ctx'.root u := hp'.root_eq hc' ▸ .member hparent hy ha hmem
          obtain ⟨p, hstand⟩ := hp'.sound.standing_of_taskOf hc' htask
          obtain ⟨z, hz⟩ := hp'.sound.exists_row (t := u) (by simp [hstand])
          rw [← hw', hz] at hnone
          cases hnone
        · exact hw' ▸ hfresh

end Turn

end World

end Coroutines
