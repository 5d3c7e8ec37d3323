import Coroutines.Proofs.Fairness.Lanes
import Coroutines.Proofs.Ownership.Endings

/-!
# What turns do to the ready queue

A task that goes on from a resume goes to the end of the queue of its scheduler, or does not go there, and
others may go there in its place: the members of the group that it opens, or the task that waited for it
(`World.Onward`).  Nothing else touches the queue while a run is in progress (`World.keeping_queue`).
-/

namespace Coroutines

namespace World

variable {β σ : Type} {w w' : World β σ} {l l' : Lanes} {s t : Nat} {new : List Nat}

theorem taskOutcome?_modifyTask (w : World β σ) (t : Nat) {f : Task → Task}
    (hf : ∀ x, (f x).outcome = x.outcome) (u : Nat) :
    (w.modifyTask t f).taskOutcome? u = w.taskOutcome? u := by
  simp only [taskOutcome?, get?_tasks_modifyTask]
  split
  · rw [Option.bind_map, show Task.outcome ∘ f = Task.outcome from funext hf]
  · rfl

/-- A task that was being resumed goes on, and some tasks join the queue: itself alone, or others. -/
structure Onward (s t : Nat) (l l' : Lanes) (new : List Nat) (w w' : World β σ) : Prop where
  lined : w'.Lined l'
  others : ∀ u, u ≠ t → l u = some .running → l' u = some .running
  queue : Grows s new w w'
  last : t ∈ new → new = [t]

/-! ### Groups -/

theorem settle_snd (w : World β σ) (g : GroupRef) : ∃ n, (w.settle g).2 = { w with nextIdentity := n } := by
  unfold settle
  split
  · exact ⟨w.nextIdentity, rfl⟩
  · exact ⟨_, rfl⟩

/-- A group that is closed lets the task go on that waits for it. -/
theorem Lined.closeGroup {g : GroupRef} (h : w.Lined l) (hs : ∃ ctx, w.context? s = some ctx)
    (hg : w.Opened l g t) : ∃ l' new, (w.closeGroup s g).2.Lined l' ∧
      (∀ u, l u = some .running → l' u = some .running) ∧
      Grows s new w (w.closeGroup s g).2 ∧ (new = [] ∨ new = [t] ∧ w.quiescent g = true) := by
  obtain ⟨hl, x, hx, ha⟩ := hg
  cases hq : w.quiescent g with
  | false =>
      simp only [World.closeGroup, hq, Bool.false_eq_true, if_false]
      exact ⟨l, [], h, fun _ => id, .of_eq fun _ => rfl, .inl rfl⟩
  | true =>
      obtain ⟨n, hn⟩ := w.settle_snd g
      have hlined : ({ w with nextIdentity := n } : World β σ).Lined l :=
        h.of_same rfl (fun _ => rfl) (.of_eq rfl)
      simp only [World.closeGroup, hq, if_true, settleGroup, hx, Option.bind_some, ha]
      rcases he : w.settle g with ⟨e | o, w₁⟩ <;> rw [he] at hn <;> subst hn
      · exact ⟨l, [], hlined, fun _ => id, .of_eq fun _ => rfl, .inl rfl⟩
      · have hset := (hlined.modifyTask (t := t) (f := fun x => { x with inbox := o.input })
          (fun _ => rfl) (fun _ => id) fun _ _ _ hc ho => ⟨hc, ho⟩).emit s
            (.joinEnd ((({ w with nextIdentity := n } : World β σ).modifyTask t
              fun x => { x with inbox := o.input }).taskId t) o.isOk)
        refine ⟨_, [t], hset.enqueue hs (hset.live (by simp [hl])) (by simp [hl]) (fun g' hg' => ?_),
          fun u hu => ?_, ?_, .inr ⟨rfl, trivial⟩⟩
        · have hid : g.id = g'.id := by simpa [hl] using hg'
          refine quiescent_mono (w := w) (hid ▸ hx) (hid ▸ hx) (fun u hu => ?_) ?_
          · exact (congrArg _ (taskOutcome?_modifyTask
              ({ w with nextIdentity := n } : World β σ) t (by exact fun _ => rfl) u)).trans hu
          · simpa only [quiescent, hid] using hq
        · refine (Lanes.set_of_ne _ _ fun e => ?_).trans hu
          rw [e, hl] at hu
          cases hu
        · exact .enqueue hs t

/-- A task that opens a group waits for it, unless no member could be claimed. -/
theorem Lined.startGroup {g : GroupRef} (h : w.Lined l) (ht : l t = some .running)
    (hs : ∃ ctx, w.context? s = some ctx) {x : Group} (hx : w.groups.get? g.id = some x) :
    ∃ l' new, Onward s t l l' new w (w.startGroup s t g).2 ∧
      (new = claimed (w.claims x.handles) w.tasks.size ∨
        claimed (w.claims x.handles) w.tasks.size = [] ∧ new = [t]) := by
  have hopened : (w.opening s t g).Opened (l.set t (some (.waiting g.id))) g t :=
    ⟨Lanes.set_self .., { x with awaitedBy := some t },
      by rw [get?_groups_opening, if_pos rfl, hx, Option.map_some], rfl⟩
  obtain ⟨l₁, h₁, hopened₁, hold, hq₁⟩ := (h.opening ht s g).startMembers hopened hs 0 x.handles
  have hs₁ := (Touches.startMembers (T := fun _ => False) (A := fun _ => False) (G := (· = g.id))
    (w.opening s t g) s rfl 0 x.handles).active hs
  obtain ⟨l₂, new, h₂, hrun, hq₂, hnew⟩ := h₁.closeGroup hs₁ hopened₁
  have hsame : ∀ i, (w.opening s t g).claimable i = w.claimable i := fun _ => rfl
  rw [claims_congr hsame] at hq₁
  have hrunning : ∀ u, u ≠ t → l u = some .running → l₂ u = some .running := fun u hu hl => by
    obtain ⟨z, hz, -⟩ := h.live (t := u) (by simp [hl])
    refine hrun u ((hold u (Table.lt_size_of_get? hz)).trans ?_)
    rw [Lanes.set_of_ne _ _ hu, hl]
  have hsize : t < w.tasks.size := by
    obtain ⟨z, hz, -⟩ := h.live (t := t) (by simp [ht])
    exact Table.lt_size_of_get? hz
  have hqueue : Grows s (claimed (w.claims x.handles) w.tasks.size) w
      ((w.opening s t g).startMembers s g 0 x.handles) := hq₁
  rw [startGroup_of_get? hx]
  rcases hnew with rfl | ⟨rfl, hquiet⟩
  · have hgrows := hqueue.trans hq₂
    rw [List.append_nil] at hgrows
    exact ⟨l₂, _, ⟨h₂, hrunning, hgrows, fun hm => absurd (le_of_mem_claimed hm) (Nat.not_le.mpr hsize)⟩, .inl rfl⟩
  · -- a member in the queue has no outcome
    have hnone : claimed (w.claims x.handles) w.tasks.size = [] := by
      refine List.eq_nil_iff_forall_not_mem.mpr fun u hu => ?_
      have hready := h₁.ready.mp (hqueue.self ▸ List.mem_append_right _ hu)
      have hlive := h₁.live (t := u) (by simp [hready])
      obtain ⟨z, hz, -⟩ := id hlive
      obtain ⟨y, hy, -, hm⟩ := h₁.member hz
        ((rows_of_startMembers (w.opening s t g) s g 0 x.handles).2 (le_of_mem_claimed hu) hz).1
      rw [not_quiescent_of_live hy hm hlive] at hquiet
      cases hquiet
    have hgrows := hqueue.trans hq₂
    rw [hnone, List.nil_append] at hgrows
    exact ⟨l₂, _, ⟨h₂, hrunning, hgrows, fun _ => rfl⟩, .inr ⟨hnone, rfl⟩⟩

/-- The members of a group that is started have new tasks, in their order. -/
theorem rows_startGroup {g : GroupRef} {x : Group} (hx : w.groups.get? g.id = some x)
    (ht : t < w.tasks.size) (s : Nat) {j : Nat} (hj : j < x.handles.length) :
    ∃ z, (w.startGroup s t g).2.tasks.get? (w.tasks.size + j) = some z ∧ z.group = some g ∧ z.index = j := by
  obtain ⟨hsize, hrows⟩ := rows_of_startMembers (w.opening s t g) s g 0 x.handles
  have hopening : (w.opening s t g).tasks.size = w.tasks.size := rfl
  obtain ⟨z, hz⟩ := Table.exists_get? (t := ((w.opening s t g).startMembers s g 0 x.handles).tasks)
    (i := w.tasks.size + j) (by rw [hsize, hopening]; omega)
  obtain ⟨hg, hi⟩ := hrows (u := w.tasks.size + j) (by rw [hopening]; omega) hz
  have hclose : Touches (fun _ => False) (· = t) (fun _ => False)
      ((w.opening s t g).startMembers s g 0 x.handles)
      (((w.opening s t g).startMembers s g 0 x.handles).closeGroup s g).2 := by
    refine .closeGroup _ fun {y p} hy hp => .inr ?_
    have hawait := awaitedBy_startMembers (w.opening s t g) s g 0 x.handles g.id
    rw [hy, get?_groups_opening, if_pos rfl, hx] at hawait
    exact Option.some.inj (hp.symm.trans hawait)
  have hne : w.tasks.size + j ≠ t := by omega
  rw [startGroup_of_get? hx]
  exact ⟨z, hclose.same id hne hz, hg, by rw [hopening] at hi; omega⟩

/-! ### One turn -/

/-- A task that is handed an input goes to the end of the queue. -/
theorem Lined.deliver (h : w.Lined l) (ht : l t = some .running) (hs : ∃ ctx, w.context? s = some ctx)
    (input : Input) : Onward s t l (l.set t (some (.ready s))) [t] w (w.deliver s t input) := by
  have hset : (w.modifyTask t fun x => { x with inbox := input, state := .suspended }).Lined l :=
    h.modifyTask (fun _ => rfl) (fun _ => id) fun _ _ _ hc ho => ⟨hc, ho⟩
  exact ⟨hset.enqueue hs (hset.live (by simp [ht])) (by simp [ht]) (by simp [ht]),
    fun u hu hl => (Lanes.set_of_ne _ _ hu).trans hl, .enqueue hs t, fun _ => rfl⟩

/-- A task that awaits a coroutine goes to the end of the queue, whether it can claim the coroutine or
not. -/
theorem Lined.suspend_coroutine (h : w.Lined l) (ht : l t = some .running)
    (hs : ∃ ctx, w.context? s = some ctx) (c : CoroutineRef) :
    Onward s t l (l.set t (some (.ready s))) [t] w (w.suspend s t (.coroutine c)).2 := by
  have hmark : (w.modifyTask t fun x => { x with state := .suspended }).Lined l :=
    h.modifyTask (fun _ => rfl) (fun _ => id) fun _ _ _ hc ho => ⟨hc, ho⟩
  have hclaim := hmark.claim c ((w.modifyTask t fun x => { x with state := .suspended }).taskId t)
  have hcontext := Touches.claim (T := fun _ => False) (A := fun _ => False) (G := fun _ => False)
    (w.modifyTask t fun x => { x with state := .suspended }) c
    ((w.modifyTask t fun x => { x with state := .suspended }).taskId t)
  rcases hcl : (w.modifyTask t fun x => { x with state := .suspended }).claim c
    ((w.modifyTask t fun x => { x with state := .suspended }).taskId t) with ⟨failure, w₂⟩
  obtain ⟨w₃, hw₃, he⟩ := World.suspend_coroutine (s := s) rfl hcl
  rw [hcl] at hclaim hcontext
  have hqueue : Grows s [] w w₂ := by
    cases failure with
    | none =>
        obtain ⟨x, -, -, -, rfl⟩ := claim_eq_none hcl
        exact .of_eq fun _ => rfl
    | some f =>
        rw [claim_eq_some hcl]
        exact .of_eq fun _ => rfl
  have hset : (w₃.emit s (.taskSuspend (w₃.taskId t) c.name)).Lined l := by
    rw [hw₃]
    refine (hclaim.modifyTask (fun x => ?_) (fun x ho => ?_) fun _ x _ hc ho => ?_).emit s _ <;> cases failure
    · rfl
    · rfl
    · exact ho
    · exact ho
    · exact ⟨List.cons_ne_nil _ _, ho⟩
    · exact ⟨hc, ho⟩
  have hs₃ : ∃ ctx, (w₃.emit s (.taskSuspend (w₃.taskId t) c.name)).context? s = some ctx := by
    rw [hw₃]
    exact hcontext.active hs
  rw [he]
  refine ⟨hset.enqueue hs₃ (hset.live (by simp [ht])) (by simp [ht]) (by simp [ht]),
    fun u hu hl => (Lanes.set_of_ne _ _ hu).trans hl, ?_, fun _ => rfl⟩
  have hinput : Grows s [] w₂ w₃ := hw₃ ▸ .of_eq fun _ => rfl
  exact (hqueue.trans hinput).trans (.enqueue (w := w₃.emit s _) hs₃ t)

/-- A task that takes its last coroutine off the chain leaves, and may end the group of its members. -/
theorem Lined.unwind (h : w.Lined l) (ht : l t = some .running) (hs : ∃ ctx, w.context? s = some ctx)
    (top : CoroutineRef) (o : Outcome) :
    ∃ l' new, Onward s t l l' new w (w.unwind s t top o).2 := by
  obtain ⟨x, hx, hc, ho⟩ := h.live (t := t) (by simp [ht])
  obtain ⟨c, rest, hchain⟩ := List.exists_cons_of_ne_nil hc
  have hrow := get?_tasks_popped hx hchain top
  cases rest with
  | cons d rest =>
      have hpop : ((w.modifyTask t fun x => { x with chain := x.chain.tail }).release top).Lined l := by
        refine (h.modifyTask (f := fun x => { x with chain := x.chain.tail }) (fun _ => rfl) (fun _ => id)
          fun _ y hy _ ho => ⟨?_, ho⟩).modifyHandle ..
        cases hx.symm.trans hy
        simp [hchain]
      have hgo := hpop.deliver ht hs o.input
      simp only [World.unwind, hrow, Option.map_some, Option.getD_some, List.isEmpty_cons,
        Bool.false_eq_true, if_false]
      exact ⟨_, _, hgo.lined, hgo.others, hgo.queue, hgo.last⟩
  | nil =>
      have hended : (w.ended s t top x o).Lined (l.set t none) := by
        have hpop : ((w.modifyTask t fun x => { x with chain := x.chain.tail }).release top).Lined
            (l.set t none) :=
          ((h.drop ht).modifyTask (f := fun x => { x with chain := x.chain.tail }) (fun _ => rfl)
            (fun _ => id) fun hl => absurd (Lanes.set_self ..) hl).modifyHandle ..
        exact (hpop.modifyTask (f := (·.ended o)) (fun _ => rfl) (fun _ _ => rfl)
          fun hl => absurd (Lanes.set_self ..) hl).emit s _
      have hothers : ∀ u, u ≠ t → l u = some .running → l.set t none u = some .running :=
        fun u hu hl => (Lanes.set_of_ne _ _ hu).trans hl
      rw [unwind_last hx hchain]
      cases hgroup : x.group with
      | none => exact ⟨_, [], hended, hothers, .of_eq fun _ => rfl, fun h => absurd h List.not_mem_nil⟩
      | some g =>
          obtain ⟨y, hy, ha, hm⟩ := h.member hx hgroup
          obtain ⟨p, hp⟩ := Option.ne_none_iff_exists'.mp ha
          -- the group had a member without an outcome, so it is waited for
          have hlp : l p = some (.waiting g.id) := (h.waiting hy hp).resolve_left fun hq => by
            rw [not_quiescent_of_live hy hm (h.live (by simp [ht]))] at hq
            cases hq
          have hpt : p ≠ t := fun e => by
            rw [e, ht] at hlp
            cases hlp
          obtain ⟨l', new, h', hrun, hq, hnew⟩ := hended.closeGroup (s := s) hs
            (g := g) ⟨(Lanes.set_of_ne _ _ hpt).trans hlp, y, hy, hp⟩
          refine ⟨l', new, h', fun u hu hl => hrun u (hothers u hu hl), hq, fun hmem => ?_⟩
          rcases hnew with rfl | ⟨rfl, -⟩
          · cases hmem
          · exact absurd (List.mem_singleton.mp hmem).symm hpt

/-- **A task goes on from any step**, in some lane or in none. -/
theorem Lined.absorb (h : w.Lined l) (ht : l t = some .running) (hs : ∃ ctx, w.context? s = some ctx)
    (top : CoroutineRef) (step : Step) :
    ∃ l' new, Onward s t l l' new w (w.absorb s t top step).2 := by
  cases step with
  | ret v => exact h.unwind ht hs top (.ok v)
  | raise r => exact h.unwind ht hs top (.error r)
  | await target =>
      cases target with
      | coroutine c => exact ⟨_, _, h.suspend_coroutine ht hs c⟩
      | group g =>
          have hmark : (w.modifyTask t fun x => { x with state := .suspended }).Lined l :=
            h.modifyTask (fun _ => rfl) (fun _ => id) fun _ _ _ hc ho => ⟨hc, ho⟩
          rw [World.absorb]
          cases hfree : w.groupTaken g with
          | true =>
              rw [suspend_of_taken hfree]
              have hgo := hmark.deliver ht hs (.throw (.ofFailure .groupAwaited))
              exact ⟨_, _, hgo.lined, hgo.others, hgo.queue, hgo.last⟩
          | false =>
              rw [suspend_of_free hfree]
              obtain ⟨x, hx, -⟩ := groupTaken_eq_false_iff.mp hfree
              obtain ⟨l', new, hgo, -⟩ := hmark.startGroup ht hs (g := g) (x := x) hx
              exact ⟨l', new, hgo.lined, hgo.others, hgo.queue, hgo.last⟩

end World

end Coroutines
