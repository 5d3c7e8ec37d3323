import Coroutines.Proofs.Renumbering.Worlds
import Coroutines.Proofs.Joining.Touches

/-!
# Turns in renumbered worlds

Claims, groups and turns come to the same in a world and in the renumbered one, and leave the one
renumbered: what a scheduler decides never depends on the number of a task.  New tasks get numbers of
their scheduler, and the tasks that were there keep theirs (`World.Corresponds`).
-/

namespace Coroutines

namespace World

variable {β σ α γ : Type} {w v : World β σ} {r : Renumbering} {num : Nat → Nat}

/-- Something came to the same in two worlds of which one is the other renumbered; the first `n` tasks
have the numbers that they had. -/
structure Corresponds (r : Renumbering) (num : Nat → Nat) (n : Nat) (x y : α × World β σ) : Prop where
  result : y.1 = x.1
  size : n ≤ x.2.tasks.size
  worlds : ∃ num', (∀ t < n, num' t = num t) ∧ x.2.Renumbered r num' y.2

namespace Corresponds

variable {x y : α × World β σ} {n : Nat}

theorem of_renumbered (h : x.2.Renumbered r num y.2) (he : y.1 = x.1) (hn : n ≤ x.2.tasks.size) :
    Corresponds r num n x y := ⟨he, hn, num, fun _ _ => rfl, h⟩

/-- What goes on from there corresponds if it does for whatever numbers the new tasks have. -/
theorem bind {k l : α → World β σ → γ × World β σ} (h : Corresponds r num n x y)
    (hk : ∀ num', (∀ t < n, num' t = num t) → x.2.Renumbered r num' y.2 →
      Corresponds r num' x.2.tasks.size (k x.1 x.2) (l x.1 y.2)) :
    Corresponds r num n (k x.1 x.2) (l y.1 y.2) := by
  obtain ⟨num', hnum, hr⟩ := h.worlds
  obtain ⟨he, hsize, num'', hnum', hr'⟩ := hk num' hnum hr
  rw [h.result]
  exact ⟨he, h.size.trans hsize, num'', fun t ht => (hnum' t (ht.trans_le h.size)).trans (hnum t ht), hr'⟩

theorem andThen {x y : Except Abort α × World β σ}
    {k l : α → World β σ → Except Abort γ × World β σ} (h : Corresponds r num n x y)
    (hk : ∀ a num', (∀ t < n, num' t = num t) → x.2.Renumbered r num' y.2 →
      Corresponds r num' x.2.tasks.size (k a x.2) (l a y.2)) :
    Corresponds r num n (World.andThen k x) (World.andThen l y) := by
  have hnext : ∀ num', (∀ t < n, num' t = num t) → x.2.Renumbered r num' y.2 →
      Corresponds r num' x.2.tasks.size (World.andThen k (x.1, x.2)) (World.andThen l (x.1, y.2)) := by
    intro num' hnum hr
    cases x.1 with
    | error e => exact .of_renumbered hr rfl le_rfl
    | ok a => exact hk a num' hnum hr
  exact h.bind (k := fun a w => World.andThen k (a, w)) (l := fun a w => World.andThen l (a, w)) hnext

end Corresponds

namespace Renumbered

/-! ### New rows -/

theorem spawn (h : w.Renumbered r num v) (name : String) (body : β) (locals : Bindings Value) :
    (v.spawn name body locals).1 = (w.spawn name body locals).1 ∧
      (w.spawn name body locals).2.Renumbered r num (v.spawn name body locals).2 := by
  refine ⟨congrArg (CoroutineRef.mk · name) h.size_handles,
    { h with handles := fun i => ?_ }⟩
  show ((v.handles.push _).get? i).map _ = ((w.handles.push _).get? i).map _
  rw [Table.get?_push, Table.get?_push, h.size_handles]
  split
  · rfl
  · exact h.handles i

theorem newGroup (h : w.Renumbered r num v) (members : List CoroutineRef) (re : Bool) :
    (v.newGroup members re).1 = (w.newGroup members re).1 ∧
      (w.newGroup members re).2.Renumbered r num (v.newGroup members re).2 := by
  refine ⟨congrArg (GroupRef.mk · members.length) h.size_groups,
    { h with groups := fun i => ?_, members := fun i y hy => ?_, grouped := fun t x g hx hg => ?_ }⟩
  · show (v.groups.push _).get? i = ((w.groups.push _).get? i).map _
    rw [Table.get?_push, Table.get?_push, h.size_groups]
    split
    · rfl
    · exact h.groups i
  · have hy' : (w.groups.push ⟨members, re, [], none⟩).get? i = some y := hy
    rw [Table.get?_push] at hy'
    split at hy'
    · cases hy'
      rintro t (ht | ht) <;> cases ht
    · exact h.members hy'
  · obtain ⟨y, p, hy, hrest⟩ := h.grouped hx hg
    exact ⟨y, p, Table.get?_push_of_some hy, hrest⟩

/-- A new task has a number of its scheduler, and so has the task that awaits its group. -/
theorem newTask (h : w.Renumbered r num v) (s : Nat) (c : CoroutineRef) (index : Nat)
    (group : Option GroupRef) (hgroup : ∀ g, group = some g → ∃ y p, w.groups.get? g.id = some y ∧
      y.awaitedBy = some p ∧ p < w.tasks.size ∧ num p = r.shift s) :
    (w.newTask s c index group).2.Renumbered r (Function.update num w.tasks.size (r.shift s))
      (v.newTask s c index group).2 := by
  have hs := h.modifyScheduler s (f := fun x => { x with nextTask := x.nextTask + 1 })
    (g := fun x => { x with nextTask := x.nextTask + 1 })
    (fun x => by simp only [Renumbering.schedule, Nat.add_right_comm]) fun x ctx hx hc => by
      have hcontext : w.context? s = some ctx := by rw [context?, hx]; exact hc
      exact h.ready hcontext
  have hid : ((v.schedulers.get? s).map Scheduler.nextTask).getD 0 =
      ((w.schedulers.get? s).map Scheduler.nextTask).getD 0 + r.shift s := by
    rw [h.schedulers]
    cases hx : w.schedulers.get? s with
    | some x => rfl
    | none =>
        obtain ⟨y, hy⟩ := h.exists_scheduler
        have hne : s ≠ r.scheduler := fun e => by
          rw [e, hy] at hx
          cases hx
        simp only [Renumbering.shift, if_neg hne]
        rfl
  have hnum : ∀ t < w.tasks.size, Function.update num w.tasks.size (r.shift s) t = num t :=
    fun t ht => Function.update_of_ne ht.ne _ _
  have hgrow : w.tasks.size < (w.newTask s c index group).2.tasks.size := by simp [World.newTask]
  refine { hs with
    tasks := fun t => ?tasks
    first := h.first.trans hgrow.le
    size := ?size
    ready := fun s' ctx hc t ht => ?ready
    members := fun g y hy t ht => (h.members hy t ht).trans hgrow
    grouped := fun t x g hx hg => ?grouped }
  case tasks =>
    show (v.tasks.push _).get? (r.row t) = ((w.tasks.push _).get? t).map _
    rw [Table.get?_push, Table.get?_push, ← h.row_size]
    simp only [r.row_eq_iff]
    split
    · next e =>
        subst e
        rw [Function.update_self, hid]
        rfl
    · next e => rw [h.tasks, Function.update_of_ne e]
  case size =>
    show (v.tasks.push _).size = (w.tasks.push _).size + _
    rw [Table.size_push, Table.size_push, h.size, Nat.add_right_comm]
  case ready =>
    obtain ⟨hlt, e⟩ := hs.ready hc t ht
    have hlt : t < w.tasks.size := hlt
    exact ⟨hlt.trans hgrow, (hnum t hlt).trans e⟩
  case grouped =>
    obtain ⟨id, hrow⟩ := w.get?_tasks_newTask s c index group
    rw [hrow] at hx
    split at hx
    · next e =>
        subst e
        cases hx
        obtain ⟨y, p, hy, ha, hp, e⟩ := hgroup g hg
        exact ⟨y, p, hy, ha, hp.trans hgrow, by rw [hnum p hp, e, Function.update_self]⟩
    · obtain ⟨y, p, hy, ha, hp, e⟩ := h.grouped hx hg
      exact ⟨y, p, hy, ha, hp.trans hgrow, by rw [hnum p hp, e, hnum t (Table.lt_size_of_get? hx)]⟩

/-! ### Claims -/

/-- Whether a coroutine can be claimed does not depend on the numbers of tasks. -/
theorem claim (h : w.Renumbered r num v) (c : CoroutineRef) (a b : Nat) :
    (v.claim c b).1 = (w.claim c a).1 ∧ (w.claim c a).2.Renumbered r num (v.claim c b).2 := by
  have he := h.handles c.id
  cases hx : w.handles.get? c.id with
  | none =>
      rw [hx, Option.map_none, Option.map_eq_none_iff] at he
      simp only [World.claim, hx, he]
      exact ⟨trivial, h⟩
  | some x =>
      obtain ⟨y, hy, hxy⟩ := h.exists_handle hx
      have hxy' := hxy
      simp only [Handle.anonymous, Handle.mk.injEq] at hxy'
      have howner : y.owner.isSome = x.owner.isSome := by
        have := congrArg Option.isSome hxy'.2.2.2.2.2.1
        simpa only [Option.isSome_map] using this
      have hclaim : y.claimFailure? = x.claimFailure? := by
        simp only [Handle.claimFailure?, hxy', howner]
      simp only [World.claim, hx, hy, hclaim]
      cases x.claimFailure? with
      | some f => exact ⟨rfl, h⟩
      | none =>
          refine ⟨rfl, h.modifyHandle c fun x y e => ?_⟩
          simp only [Handle.anonymous, Handle.mk.injEq] at e
          simp [Handle.ownedBy, Handle.anonymous, e]

/-! ### Queues -/

theorem dequeue_none (h : w.Renumbered r num v) {s : Nat} (hd : w.dequeue s = none) :
    v.dequeue s = none := by
  simp only [dequeue, h.context?_eq] at hd ⊢
  cases hc : w.context? s with
  | none => rfl
  | some ctx =>
      simp only [hc] at hd
      cases hq : ctx.ready with
      | nil => simp only [Option.map_some, Renumbering.context, hq, List.map_nil]
      | cons t rest =>
          simp only [hq] at hd
          cases hd

/-- The same task is next. -/
theorem dequeue_some (h : w.Renumbered r num v) {s t : Nat} {w' : World β σ}
    (hd : w.dequeue s = some (t, w')) : ∃ v', v.dequeue s = some (r.row t, v') ∧
      w'.Renumbered r num v' ∧ t < w'.tasks.size ∧ num t = r.shift s := by
  obtain ⟨ctx, rest, hc, hq, rfl⟩ := dequeue_eq_some hd
  refine ⟨v.modifyContext s fun ctx => { ctx with ready := rest.map r.row }, ?_, ?_, ?_⟩
  · simp only [dequeue, h.context?_eq, hc, Option.map_some, Renumbering.context, hq, List.map_cons]
  · refine h.modifyContext s (fun _ => rfl) fun ctx' hc' u hu => ?_
    cases hc.symm.trans hc'
    exact h.ready hc u (by
      rw [hq]
      exact (List.sublist_cons_self t rest).cons_cons ctx.root |>.subset hu)
  · exact h.ready hc t (by simp [hq])

/-! ### Groups -/

theorem quiescent_eq (h : w.Renumbered r num v) (g : GroupRef) : v.quiescent g = w.quiescent g := by
  simp only [quiescent, h.groups]
  cases w.groups.get? g.id with
  | none => rfl
  | some x =>
      simp only [Option.map_some, Renumbering.group, List.length_map, List.all_map]
      exact congrArg _ (congrArg (x.tasks.all ·) (funext fun t => by
        simp only [Function.comp_apply, h.taskOutcome?_eq]))

theorem groupTaken_eq (h : w.Renumbered r num v) (g : GroupRef) : v.groupTaken g = w.groupTaken g := by
  simp only [groupTaken, h.groups]
  cases w.groups.get? g.id with
  | none => rfl
  | some x => exact Option.isSome_map

/-- The outcomes of tasks count, and their numbers do not. -/
theorem gatherOutcomes_eq (h : w.Renumbered r num v) (re : Bool) (ts : List Nat) (n : Nat) :
    gatherOutcomes re ((ts.map r.row).filterMap v.tasks.get?) n =
      gatherOutcomes re (ts.filterMap w.tasks.get?) n := by
  induction ts generalizing n with
  | nil => rfl
  | cons t rest ih =>
      rw [List.map_cons, List.filterMap_cons, List.filterMap_cons, h.tasks]
      cases hx : w.tasks.get? t with
      | none => exact ih n
      | some x =>
          simp only [Option.map_some, gatherOutcomes, Task.numbered, ih]

theorem settle (h : w.Renumbered r num v) (g : GroupRef) :
    (v.settle g).1 = (w.settle g).1 ∧ (w.settle g).2.Renumbered r num (v.settle g).2 := by
  simp only [World.settle, h.groups]
  cases w.groups.get? g.id with
  | none => exact ⟨rfl, h⟩
  | some x =>
      simp only [Option.map_some, Renumbering.group, h.gatherOutcomes_eq, h.identity]
      exact ⟨trivial, { h with identity := rfl }⟩

/-- The task that awaits a group is handed its result. -/
theorem closeGroup (h : w.Renumbered r num v) {s : Nat} {g : GroupRef}
    (hp : ∀ y p, w.groups.get? g.id = some y → y.awaitedBy = some p →
      p < w.tasks.size ∧ num p = r.shift s) :
    Corresponds r num w.tasks.size (w.closeGroup s g) (v.closeGroup s g) := by
  simp only [World.closeGroup, h.quiescent_eq]
  split
  · simp only [settleGroup, h.groups]
    cases hg : w.groups.get? g.id with
    | none => exact .of_renumbered h rfl le_rfl
    | some y =>
        cases ha : y.awaitedBy with
        | none =>
            simp only [Option.map_some, Option.bind_some, Renumbering.group, ha, Option.map_none]
            exact .of_renumbered h rfl le_rfl
        | some p =>
            obtain ⟨hlt, hnum⟩ := hp y p hg ha
            obtain ⟨he, hs⟩ := h.settle g
            have htasks : (w.settle g).2.tasks.size = w.tasks.size := by
              unfold World.settle
              split <;> rfl
            simp only [Option.map_some, Option.bind_some, Renumbering.group, ha]
            rcases hw : w.settle g with ⟨e | o, w₁⟩ <;> rcases hv : v.settle g with ⟨e' | o', v₁⟩ <;>
              rw [hw, hv] at he hs <;> rw [hw] at htasks <;> cases he
            · exact .of_renumbered hs rfl htasks.ge
            · have hlt₁ : p < w₁.tasks.size := hlt.trans_eq htasks.symm
              have hm := hs.modifyTask p (f := fun x => { x with inbox := o.input })
                (fun _ _ => rfl) fun _ => rfl
              have hsize : (w₁.modifyTask p fun x => { x with inbox := o.input }).tasks.size =
                  w₁.tasks.size := size_tasks_modifyTask ..
              have hemit := hm.emit s (.joinEnd
                ((w₁.modifyTask p fun x => { x with inbox := o.input }).taskId p) o.isOk)
              rw [Event.numbered, ← hnum, ← hm.taskId_eq (hlt₁.trans_eq hsize.symm)] at hemit
              exact .of_renumbered (hemit.enqueue (hlt₁.trans_eq hsize.symm) hnum) rfl
                (htasks.symm.trans hsize.symm).le
  · exact .of_renumbered h rfl le_rfl

/-- A new member has a number of the scheduler of its group. -/
theorem addMember (h : w.Renumbered r num v) {s : Nat} {g : GroupRef} {y : Group} {p : Nat}
    (hy : w.groups.get? g.id = some y) (ha : y.awaitedBy = some p) (hp : p < w.tasks.size)
    (hnum : num p = r.shift s) (index : Nat) (c : CoroutineRef) :
    (w.addMember s g index c).2.Renumbered r (Function.update num w.tasks.size (r.shift s))
      (v.addMember s g index c).2 := by
  have hn := h.newTask s c index (some g) fun g' e => by
    cases e
    exact ⟨y, p, hy, ha, hp, hnum⟩
  have hm := hn.modifyGroup g (f := fun x => { x with tasks := x.tasks ++ [w.tasks.size] })
    (k := fun x => { x with tasks := x.tasks ++ [v.tasks.size] })
    (fun x => by simp [Renumbering.group, h.row_size]) (fun _ _ _ ha => ha) fun x hx t ht => by
      have hgrow : w.tasks.size < (w.newTask s c index (some g)).2.tasks.size := by simp [World.newTask]
      rw [List.mem_append, List.mem_singleton] at ht
      rcases ht with (ht | rfl) | ht
      · exact hn.members hx t (.inl ht)
      · exact hgrow
      · exact hn.members hx t (.inr ht)
  have he := hm.emit s (.taskSpawn (((w.newTask s c index (some g)).2.modifyGroup g
    fun x => { x with tasks := x.tasks ++ [w.tasks.size] }).taskId w.tasks.size) index c.name)
  have hid := hm.taskId_eq (t := w.tasks.size) (by simp [World.newTask])
  rw [h.row_size, Function.update_self] at hid
  rw [Event.numbered, ← hid] at he
  exact he

theorem startMember (h : w.Renumbered r num v) {s : Nat} {g : GroupRef} {y : Group} {p : Nat}
    (hy : w.groups.get? g.id = some y) (ha : y.awaitedBy = some p) (hp : p < w.tasks.size)
    (hnum : num p = r.shift s) (index : Nat) (c : CoroutineRef) :
    (w.startMember s g index c).Renumbered r (Function.update num w.tasks.size (r.shift s))
      (v.startMember s g index c) ∧ w.tasks.size < (w.startMember s g index c).tasks.size := by
  have hadd := h.addMember hy ha hp hnum index c
  obtain ⟨-, w₁, hw, -, hsize, -⟩ := w.addMember_spec s g index c
  obtain ⟨-, v₁, hv, -⟩ := v.addMember_spec s g index c
  rw [hw, hv] at hadd
  obtain ⟨hclaim, hclaimed⟩ := hadd.claim c (w₁.taskId w.tasks.size) (v₁.taskId v.tasks.size)
  simp only [World.startMember, hw, hv, ← h.row_size] at hclaim hclaimed ⊢
  have htasks : (w₁.claim c (w₁.taskId w.tasks.size)).2.tasks.size = w.tasks.size + 1 := by
    rw [tasks_claim, hsize]
  rcases hcw : w₁.claim c (w₁.taskId w.tasks.size) with ⟨f | f, w₂⟩ <;>
    rcases hcv : v₁.claim c (v₁.taskId (r.row w.tasks.size)) with ⟨f' | f', v₂⟩ <;>
    rw [hcw, hcv] at hclaim hclaimed <;> rw [hcw] at htasks <;> cases hclaim
  · have hlt : w.tasks.size < w₂.tasks.size := by
      rw [show w₂.tasks.size = _ from htasks]
      exact Nat.lt_succ_self _
    exact ⟨hclaimed.enqueue hlt (Function.update_self ..), hlt⟩
  · refine ⟨hclaimed.modifyTask _ (fun _ _ => rfl) fun _ => rfl, ?_⟩
    rw [size_tasks_modifyTask, show w₂.tasks.size = _ from htasks]
    exact Nat.lt_succ_self _

/-- The members of a group have numbers of its scheduler. -/
theorem startMembers (h : w.Renumbered r num v) {s : Nat} {g : GroupRef} {y : Group} {p : Nat}
    (hy : w.groups.get? g.id = some y) (ha : y.awaitedBy = some p) (hp : p < w.tasks.size)
    (hnum : num p = r.shift s) (index : Nat) (cs : List CoroutineRef) :
    Corresponds r num w.tasks.size ((), w.startMembers s g index cs)
      ((), v.startMembers s g index cs) := by
  induction cs generalizing w v num index y with
  | nil => exact .of_renumbered h rfl le_rfl
  | cons c rest ih =>
      obtain ⟨hs, hlt⟩ := h.startMember hy ha hp hnum index c
      have hold : ∀ t < w.tasks.size, Function.update num w.tasks.size (r.shift s) t = num t :=
        fun t ht => Function.update_of_ne ht.ne _ _
      have hgroup : (w.startMember s g index c).groups.get? g.id =
          some { y with tasks := y.tasks ++ [w.tasks.size] } := by
        rw [get?_groups_startMember, if_pos rfl, hy]
        rfl
      obtain ⟨-, hsize, num', hnum', hr⟩ :=
        ih hs hgroup ha (hp.trans hlt) ((hold p hp).trans hnum) (index + 1)
      exact ⟨rfl, hlt.le.trans hsize, num',
        fun t ht => (hnum' t (ht.trans hlt)).trans (hold t ht), hr⟩

/-- A group that nobody awaits is started for a task. -/
theorem startGroup (h : w.Renumbered r num v) {s t : Nat} {g : GroupRef} {y : Group}
    (hy : w.groups.get? g.id = some y) (hfree : y.awaitedBy = none) (ht : t < w.tasks.size)
    (hnum : num t = r.shift s) :
    Corresponds r num w.tasks.size (w.startGroup s t g) (v.startGroup s (r.row t) g) := by
  have hm := h.modifyGroup g (f := fun x => { x with awaitedBy := some t })
    (k := fun x => { x with awaitedBy := some (r.row t) }) (fun _ => rfl) (fun x p hx ha => by
      cases hy.symm.trans hx
      cases hfree.symm.trans ha) fun x hx u hu => by
        rcases hu with hu | hu
        · exact h.members hx u (.inl hu)
        · cases hu
          exact ht
  have hopen : (w.opening s t g).Renumbered r num (v.opening s (r.row t) g) := by
    have he := hm.emit s (.joinStart
      ((w.modifyGroup g fun x => { x with awaitedBy := some t }).taskId t)
      ((w.modifyGroup g fun x => { x with awaitedBy := some t }).groupSize g))
    rw [Event.numbered, ← hnum, ← hm.taskId_eq ht] at he
    rw [World.opening, World.opening, hm.groupSize_eq]
    exact he
  have hgroup : (w.opening s t g).groups.get? g.id = some { y with awaitedBy := some t } := by
    rw [get?_groups_opening, if_pos rfl, hy]
    rfl
  rw [startGroup_eq, startGroup_eq, h.groups, hy]
  refine (hopen.startMembers hgroup rfl ht hnum 0 y.handles).bind
    (k := fun _ w => w.closeGroup s g) (l := fun _ v => v.closeGroup s g) fun num' hnum' hr => ?_
  refine hr.closeGroup fun z p hz ha => ?_
  have hawait := awaitedBy_startMembers (w.opening s t g) s g 0 y.handles g.id
  rw [hgroup, hz, Option.bind_some, Option.bind_some, ha] at hawait
  cases hawait
  obtain ⟨-, hsize, -⟩ := hopen.startMembers hgroup rfl ht hnum 0 y.handles
  exact ⟨Nat.lt_of_lt_of_le ht hsize, (hnum' t ht).trans hnum⟩

/-! ### One turn -/

theorem suspend (h : w.Renumbered r num v) {s t : Nat} (ht : t < w.tasks.size)
    (hnum : num t = r.shift s) (target : Target) :
    Corresponds r num w.tasks.size (w.suspend s t target) (v.suspend s (r.row t) target) := by
  have hm := h.modifyTask t (f := fun x => { x with state := .suspended }) (fun _ _ => rfl)
    fun _ => rfl
  have hsize : (w.modifyTask t fun x => { x with state := .suspended }).tasks.size = w.tasks.size :=
    size_tasks_modifyTask ..
  have hlt := ht.trans_eq hsize.symm
  cases target with
  | group g =>
      simp only [World.suspend, hm.groupTaken_eq]
      split
      · refine .of_renumbered (hm.deliver hlt hnum _) rfl ?_
        show w.tasks.size ≤ (World.modifyTask _ t _).tasks.size
        rw [size_tasks_modifyTask, hsize]
      · next htaken =>
          simp only [groupTaken] at htaken
          split at htaken
          · exact absurd rfl htaken
          · next y hy =>
              have := hm.startGroup hy (by simpa using htaken) hlt hnum
              rwa [hsize] at this
  | coroutine c =>
      obtain ⟨hclaim, hclaimed⟩ := hm.claim c
        ((w.modifyTask t fun x => { x with state := .suspended }).taskId t)
        ((v.modifyTask (r.row t) fun x => { x with state := .suspended }).taskId (r.row t))
      have htasks := congrArg Table.size (tasks_claim
        (w.modifyTask t fun x => { x with state := .suspended }) c
        ((w.modifyTask t fun x => { x with state := .suspended }).taskId t))
      simp only [World.suspend]
      rcases hcw : World.claim _ c _ with ⟨failure, w₁⟩
      rcases hcv : (v.modifyTask (r.row t) _).claim c _ with ⟨failure', v₁⟩
      rw [hcw, hcv] at hclaim hclaimed
      rw [hcw] at htasks
      obtain rfl : failure' = failure := hclaim
      -- granted or refused, the task reports that it is suspended and is queued
      have hgo : ∀ f : Task → Task, (∀ x k, f (x.numbered k) = (f x).numbered k) →
          (∀ x, (f x).group = x.group) → Corresponds r num w.tasks.size
            ((.ok () : Except Abort Unit), ((w₁.modifyTask t f).emit s
              (.taskSuspend ((w₁.modifyTask t f).taskId t) c.name)).enqueue s t)
            (.ok (), ((v₁.modifyTask (r.row t) f).emit s
              (.taskSuspend ((v₁.modifyTask (r.row t) f).taskId (r.row t)) c.name)).enqueue s
                (r.row t)) := by
        intro f hf hg
        have hmarked := hclaimed.modifyTask t hf hg
        have hsize₁ : (w₁.modifyTask t f).tasks.size = w.tasks.size :=
          (size_tasks_modifyTask ..).trans (htasks.trans hsize)
        have hlt₁ := ht.trans_eq hsize₁.symm
        have hemit := hmarked.emit s (.taskSuspend ((w₁.modifyTask t f).taskId t) c.name)
        rw [Event.numbered, ← hnum, ← hmarked.taskId_eq hlt₁] at hemit
        exact .of_renumbered (hemit.enqueue hlt₁ hnum) rfl hsize₁.ge
      cases failure' with
      | none => exact hgo _ (fun _ _ => rfl) fun _ => rfl
      | some f => exact hgo _ (fun _ _ => rfl) fun _ => rfl

theorem finish (h : w.Renumbered r num v) {s t : Nat} (hnum : num t = r.shift s)
    (outcome : Outcome) :
    Corresponds r num w.tasks.size (w.finish s t outcome) (v.finish s (r.row t) outcome) := by
  have hm := h.modifyTask t (f := (·.ended outcome)) (fun _ _ => rfl) fun _ => rfl
  have hsize : (w.modifyTask t (·.ended outcome)).tasks.size = w.tasks.size :=
    size_tasks_modifyTask ..
  cases hx : w.tasks.get? t with
  | none =>
      have hw : (w.modifyTask t (·.ended outcome)).tasks.get? t = none := by
        rw [get?_tasks_modifyTask, if_pos rfl, hx]
        rfl
      have hv := hm.tasks t
      rw [hw] at hv
      simp only [World.finish, hw, hv]
      exact .of_renumbered hm rfl hsize.ge
  | some x =>
      have hv := h.tasks t
      rw [hx, Option.map_some] at hv
      have hemit := hm.emit s (.taskEnd x.id x.index outcome.isOk)
      rw [Event.numbered, ← hnum] at hemit
      cases hg : x.group with
      | none =>
          rw [finish_root hx hg, finish_root hv hg]
          exact .of_renumbered hemit rfl hsize.ge
      | some g =>
          rw [finish_member hx hg, finish_member hv hg]
          have hclose := hemit.closeGroup (s := s) (g := g) fun y p hy ha => by
            obtain ⟨z, q, hz, haz, hq, e⟩ := h.grouped hx hg
            cases hz.symm.trans hy
            cases haz.symm.trans ha
            exact ⟨hq.trans_eq hsize.symm, e.trans hnum⟩
          rw [show ((w.modifyTask t (·.ended outcome)).emit s _).tasks.size = w.tasks.size
            from hsize] at hclose
          exact hclose

theorem unwind (h : w.Renumbered r num v) {s t : Nat} (ht : t < w.tasks.size)
    (hnum : num t = r.shift s) (top : CoroutineRef) (outcome : Outcome) :
    Corresponds r num w.tasks.size (w.unwind s t top outcome) (v.unwind s (r.row t) top outcome) := by
  have hm := (h.modifyTask t (f := fun x => { x with chain := x.chain.tail }) (fun _ _ => rfl)
    fun _ => rfl).release top
  have hsize : ((w.modifyTask t fun x => { x with chain := x.chain.tail }).release top).tasks.size =
      w.tasks.size := size_tasks_modifyTask ..
  have hempty : (((v.modifyTask (r.row t) fun x => { x with chain := x.chain.tail }).release
        top).tasks.get? (r.row t) |>.map fun x => x.chain.isEmpty) =
      (((w.modifyTask t fun x => { x with chain := x.chain.tail }).release top).tasks.get? t
        |>.map fun x => x.chain.isEmpty) := by
    rw [hm.tasks, Option.map_map]
    rfl
  simp only [World.unwind, hempty]
  split
  · rw [← hsize]
    exact hm.finish hnum outcome
  · refine .of_renumbered (hm.deliver (ht.trans_eq hsize.symm) hnum _) rfl ?_
    show w.tasks.size ≤ (World.modifyTask _ t _).tasks.size
    rw [size_tasks_modifyTask, hsize]

/-- A task goes on in the same way from a step of its coroutine. -/
theorem absorb (h : w.Renumbered r num v) {s t : Nat} (ht : t < w.tasks.size)
    (hnum : num t = r.shift s) (top : CoroutineRef) (step : Step) :
    Corresponds r num w.tasks.size (w.absorb s t top step) (v.absorb s (r.row t) top step) := by
  cases step with
  | await target => exact h.suspend ht hnum target
  | ret a => exact h.unwind ht hnum top (.ok a)
  | raise record => exact h.unwind ht hnum top (.error record)

theorem exceeded?_eq (h : w.Renumbered r num v) (s : Nat) : v.exceeded? s = w.exceeded? s := by
  simp only [exceeded?, h.schedulers]
  rcases w.schedulers.get? s with _ | ⟨_, _ | ctx, _ | limit⟩ <;> rfl

/-- The same coroutine is taken up with the same input, or the same limit is reached. -/
theorem takeUp (h : w.Renumbered r num v) (s t : Nat) :
    Corresponds r num w.tasks.size (w.takeUp s t) (v.takeUp s (r.row t)) := by
  have hc : (w.counted s).Renumbered r num (v.counted s) :=
    h.modifyContext s (fun _ => rfl) fun ctx hctx t ht => @h.ready s ctx hctx t ht
  have hrow : ((v.tasks.get? (r.row t)).bind fun x => x.chain.head?.map (·, x.inbox)) =
      (w.tasks.get? t).bind fun x => x.chain.head?.map (·, x.inbox) := by
    rw [h.tasks]
    cases w.tasks.get? t <;> rfl
  rw [takeUp_eq, takeUp_eq, hrow, hc.exceeded?_eq]
  split
  · exact .of_renumbered h rfl le_rfl
  · split
    · exact .of_renumbered (hc.emit s _) rfl le_rfl
    · exact .of_renumbered (hc.modifyTask t (fun _ _ => rfl) fun _ => rfl) rfl
        (size_tasks_modifyTask ..).ge

end Renumbered

end World

end Coroutines
