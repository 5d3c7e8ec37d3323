import Coroutines.Proofs.Activity
import Coroutines.Proofs.Joining.Settling

/-!
# The lanes of tasks

A task that has no outcome is in one ready queue, is being resumed, or waits for one group (`Lanes`), and
the tables say so (`World.Lined`).  Whatever bodies do keeps this, also bodies that resume, claim and
release coroutines by hand: it speaks of tasks, groups and queues only, not of who owns a coroutine.
-/

namespace Coroutines

/-- Where a task without an outcome is. -/
inductive Lane where
  /-- In the ready queue of a scheduler. -/
  | ready (s : Nat)
  | running
  /-- Until the members of a group have outcomes. -/
  | waiting (group : Nat)
  deriving DecidableEq

/-- The lane of each task that is in one. -/
abbrev Lanes := Nat → Option Lane

/-- The lanes after a task changed over to another, or left. -/
def Lanes.set (l : Lanes) (t : Nat) (p : Option Lane) : Lanes := Function.update l t p

@[simp] theorem Lanes.set_self (l : Lanes) (t : Nat) (p : Option Lane) : l.set t p t = p := by
  simp [set]

theorem Lanes.set_of_ne (l : Lanes) {t u : Nat} (p : Option Lane) (h : u ≠ t) : l.set t p u = l u := by
  simp [set, h]

theorem Lanes.set_apply (l : Lanes) (t : Nat) (p : Option Lane) (u : Nat) :
    l.set t p u = if u = t then p else l u := Function.update_apply ..

namespace World

variable {β σ : Type} {w w' : World β σ} {l l' : Lanes} {s t : Nat}

/-- The ready queue of a scheduler, which is empty while no run is in progress. -/
def queue (w : World β σ) (s : Nat) : List Nat := ((w.context? s).map RunContext.ready).getD []

/-- A task has a coroutine to resume and no outcome. -/
def Live (w : World β σ) (t : Nat) : Prop :=
  ∃ x, w.tasks.get? t = some x ∧ x.chain ≠ [] ∧ x.outcome = none

/-- The tables agree with some lanes. -/
structure Lined (w : World β σ) (l : Lanes) : Prop where
  nodup : ∀ s, (w.queue s).Nodup
  ready : ∀ {s t}, t ∈ w.queue s ↔ l t = some (.ready s)
  live : ∀ {t}, l t ≠ none → w.Live t
  waiting : ∀ {g : GroupRef} {x p}, w.groups.get? g.id = some x → x.awaitedBy = some p →
    w.quiescent g = true ∨ l p = some (.waiting g.id)
  member : ∀ {t x} {g : GroupRef}, w.tasks.get? t = some x → x.group = some g →
    ∃ y, w.groups.get? g.id = some y ∧ y.awaitedBy ≠ none ∧ t ∈ y.tasks

/-! ### Queues -/

theorem queue_congr (h : w'.context? s = w.context? s) : w'.queue s = w.queue s := by
  rw [queue, queue, h]

theorem queue_enqueue (hs : ∃ ctx, w.context? s = some ctx) (t s' : Nat) :
    (w.enqueue s t).queue s' = w.queue s' ++ if s' = s then [t] else [] := by
  obtain ⟨ctx, hc⟩ := hs
  rw [queue, queue, context?_enqueue]
  by_cases e : s = s'
  · subst e
    simp [hc]
  · simp [e, Ne.symm e]

theorem queue_of_dequeue (hd : w.dequeue s = some (t, w')) :
    w.queue s = t :: w'.queue s ∧ ∀ s', s' ≠ s → w'.queue s' = w.queue s' := by
  obtain ⟨ctx, rest, hc, hr, rfl⟩ := dequeue_eq_some hd
  refine ⟨?_, fun s' hs => queue_congr ?_⟩
  · rw [queue, queue, context?_modifyContext, if_pos rfl, hc]
    exact hr
  · rw [context?_modifyContext, if_neg (Ne.symm hs)]

/-- Some tasks joined the ready queue of a scheduler, and those of the others stayed. -/
def Grows (s : Nat) (new : List Nat) (w w' : World β σ) : Prop :=
  ∀ s', w'.queue s' = w.queue s' ++ if s' = s then new else []

namespace Grows

variable {w'' : World β σ} {s : Nat} {new new' : List Nat}

theorem of_eq (h : ∀ s', w'.queue s' = w.queue s') : Grows s [] w w' := fun s' => by simp [h s']

theorem trans (h : Grows s new w w') (h' : Grows s new' w' w'') : Grows s (new ++ new') w w'' := by
  intro s'
  rw [h', h, List.append_assoc]
  split <;> rfl

theorem self (h : Grows s new w w') : w'.queue s = w.queue s ++ new := (h s).trans (by rw [if_pos rfl])

theorem other (h : Grows s new w w') {s' : Nat} (hs : s' ≠ s) : w'.queue s' = w.queue s' :=
  (h s').trans (by rw [if_neg hs, List.append_nil])

theorem enqueue (hs : ∃ ctx, w.context? s = some ctx) (t : Nat) : Grows s [t] w (w.enqueue s t) :=
  queue_enqueue hs t

end Grows

/-! ### Changes that leave the lanes -/

theorem not_quiescent_of_live {g : GroupRef} {x : Group} (hx : w.groups.get? g.id = some x)
    (ht : t ∈ x.tasks) (h : w.Live t) : w.quiescent g = false := by
  obtain ⟨y, hy, -, ho⟩ := h
  refine Bool.eq_false_iff.mpr fun hq => ?_
  simp only [quiescent, hx, Bool.and_eq_true, List.all_eq_true] at hq
  have := hq.2 t ht
  rw [taskOutcome?_of_get? hy, ho] at this
  cases this

/-- A group of members that have outcomes stays one. -/
theorem quiescent_mono {g : GroupRef} {x : Group} (hx : w.groups.get? g.id = some x)
    (hx' : w'.groups.get? g.id = some x)
    (hout : ∀ t, (w.taskOutcome? t).isSome = true → (w'.taskOutcome? t).isSome = true)
    (h : w.quiescent g = true) : w'.quiescent g = true := by
  simp only [quiescent, hx, hx', Bool.and_eq_true, List.all_eq_true] at h ⊢
  exact ⟨h.1, fun t ht => hout t (h.2 t ht)⟩

namespace Lined

/-- Lanes stay while queues and awaited groups do, and tasks keep their groups and what they have. -/
theorem mono (h : w.Lined l) (hqueue : ∀ s, w'.queue s = w.queue s) (hgroups : w.SameAwaited w')
    (hlive : ∀ t, l t ≠ none → w.Live t → w'.Live t)
    (hout : ∀ t, (w.taskOutcome? t).isSome = true → (w'.taskOutcome? t).isSome = true)
    (hrow : ∀ t x', w'.tasks.get? t = some x' → ∃ x, w.tasks.get? t = some x ∧ x'.group = x.group) :
    w'.Lined l where
  nodup s := hqueue s ▸ h.nodup s
  ready {s} {t} := hqueue s ▸ h.ready
  live ht := hlive _ ht (h.live ht)
  waiting hx hp := by
    have hx₀ := (hgroups (by simp [hp])).mp hx
    exact (h.waiting hx₀ hp).imp_left (quiescent_mono hx₀ hx hout)
  member hx' hg := by
    obtain ⟨x, hx, he⟩ := hrow _ _ hx'
    obtain ⟨y, hy, ha, hm⟩ := h.member hx (he ▸ hg)
    exact ⟨y, (hgroups ha).mpr hy, ha, hm⟩

theorem of_same (h : w.Lined l) (htasks : w'.tasks = w.tasks) (hqueue : ∀ s, w'.queue s = w.queue s)
    (hgroups : w.SameAwaited w') : w'.Lined l := by
  refine h.mono hqueue hgroups (fun t _ ht => ?_) (fun t ht => ?_) fun t x hx => ⟨x, htasks ▸ hx, rfl⟩
  · rwa [Live, htasks]
  · rwa [taskOutcome?, htasks]

theorem emit (h : w.Lined l) (s : Nat) (e : Event) : (w.emit s e).Lined l :=
  h.of_same rfl (fun _ => rfl) (.of_eq rfl)

theorem modifyHandle (h : w.Lined l) (c : CoroutineRef) (f : Handle β → Handle β) :
    (w.modifyHandle c f).Lined l :=
  h.of_same rfl (fun _ => rfl) (.of_eq rfl)

theorem claim (h : w.Lined l) (c : CoroutineRef) (task : Nat) : (w.claim c task).2.Lined l := by
  rcases hc : w.claim c task with ⟨- | f, w'⟩
  · obtain ⟨x, -, -, -, rfl⟩ := claim_eq_none hc
    exact h.modifyHandle ..
  · rwa [claim_eq_some hc]

/-- A row may change as long as its task keeps its group, its outcome and, in a lane, something to do. -/
theorem modifyTask (h : w.Lined l) {f : Task → Task} (hgroup : ∀ x, (f x).group = x.group)
    (hout : ∀ x, x.outcome.isSome = true → (f x).outcome.isSome = true)
    (hlive : l t ≠ none → ∀ x, w.tasks.get? t = some x → x.chain ≠ [] → x.outcome = none →
      (f x).chain ≠ [] ∧ (f x).outcome = none) : (w.modifyTask t f).Lined l := by
  have hrow := get?_tasks_modifyTask w t f
  refine h.mono (fun _ => rfl) (.of_eq rfl) (fun u hu hx => ?_) (fun u ho => ?_) fun u x' hx' => ?_
  · obtain ⟨x, hx, hc, ho⟩ := hx
    by_cases e : t = u
    · subst e
      exact ⟨f x, by rw [hrow, if_pos rfl, hx, Option.map_some], hlive hu x hx hc ho⟩
    · exact ⟨x, by rw [hrow, if_neg e, hx], hc, ho⟩
  · simp only [taskOutcome?, hrow] at ho ⊢
    split
    · cases hx : w.tasks.get? u with
      | none => simp [hx] at ho
      | some x =>
          rw [hx] at ho
          exact hout x ho
    · exact ho
  · rw [hrow] at hx'
    split at hx'
    · obtain ⟨x, hx, rfl⟩ := Option.map_eq_some_iff.mp hx'
      exact ⟨x, hx, hgroup x⟩
    · exact ⟨x', hx', rfl⟩

/-! ### Tasks that change lanes -/

/-- A task that has left its lane, or got what it waited for, joins a ready queue. -/
theorem enqueue (h : w.Lined l) (hs : ∃ ctx, w.context? s = some ctx) (ht : w.Live t)
    (hready : ∀ s', l t ≠ some (.ready s'))
    (hwait : ∀ g : GroupRef, l t = some (.waiting g.id) → w.quiescent g = true) :
    (w.enqueue s t).Lined (l.set t (some (.ready s))) where
  nodup s' := by
    rw [queue_enqueue hs]
    refine List.nodup_append.mpr ⟨h.nodup s', by split <;> simp, fun u hu v hv => ?_⟩
    split at hv
    · rw [List.mem_singleton.mp hv]
      rintro rfl
      exact hready s' (h.ready.mp hu)
    · cases hv
  ready {s' u} := by
    rw [queue_enqueue hs, List.mem_append, h.ready, Lanes.set_apply]
    by_cases e : u = t
    · subst e
      simp only [hready, false_or, if_true, Option.some.injEq, Lane.ready.injEq]
      by_cases hs' : s' = s
      · simp [hs']
      · simp [hs', Ne.symm hs']
    · rw [if_neg e]
      refine or_iff_left fun hu => ?_
      split at hu
      · exact e (List.mem_singleton.mp hu)
      · cases hu
  live {u} hu := by
    by_cases e : u = t
    · exact e ▸ ht
    · exact h.live (by rwa [Lanes.set_of_ne _ _ e] at hu)
  waiting {g x p} hx hp := by
    by_cases e : p = t
    · subst e
      exact .inl ((h.waiting hx hp).elim id (hwait g))
    · rw [Lanes.set_of_ne _ _ e]
      exact h.waiting hx hp
  member := h.member

/-- The task at the head of a queue is taken up. -/
theorem dequeue (h : w.Lined l) (hd : w.dequeue s = some (t, w')) :
    w'.Lined (l.set t (some .running)) ∧ l t = some (.ready s) := by
  obtain ⟨hq, hother⟩ := queue_of_dequeue hd
  obtain ⟨ctx, rest, -, -, hw'⟩ := dequeue_eq_some hd
  have hready : l t = some (.ready s) := h.ready.mp (by simp [hq])
  have hnodup := h.nodup s
  rw [hq, List.nodup_cons] at hnodup
  have htasks : w'.tasks = w.tasks := by rw [hw', tasks_modifyContext]
  have hgroups : w'.groups = w.groups := by rw [hw', groups_modifyContext]
  have hquiet : ∀ g, w'.quiescent g = w.quiescent g := fun g => by rw [hw']; rfl
  refine ⟨⟨fun s' => ?nodup, fun {s' u} => ?ready, fun {u} hu => ?live, fun {g x p} hx hp => ?waiting, ?member⟩, hready⟩
  case nodup =>
    by_cases e : s' = s
    · exact e ▸ hnodup.2
    · exact hother s' e ▸ h.nodup s'
  case ready =>
    by_cases hu : u = t
    · subst hu
      rw [Lanes.set_self]
      refine iff_of_false (fun hm => ?_) nofun
      by_cases e : s' = s
      · exact hnodup.1 (e ▸ hm)
      · rw [hother s' e, h.ready, hready] at hm
        cases hm
        exact e rfl
    · rw [Lanes.set_of_ne _ _ hu, ← h.ready]
      by_cases e : s' = s
      · rw [e, hq, List.mem_cons, or_iff_right hu]
      · rw [hother s' e]
  case live =>
    rw [Live, htasks]
    by_cases e : u = t
    · exact h.live (by rw [e, hready]; nofun)
    · exact h.live (by rwa [Lanes.set_of_ne _ _ e] at hu)
  case waiting =>
    rw [hgroups] at hx
    rw [hquiet]
    refine (h.waiting hx hp).imp_right fun hw => ?_
    rwa [Lanes.set_of_ne _ _ fun e => ?_]
    rw [e, hready] at hw
    cases hw
  case member =>
    intro u x g hx hg
    rw [htasks] at hx
    rw [hgroups]
    exact h.member hx hg

/-- A task that was being resumed leaves. -/
theorem drop (h : w.Lined l) (ht : l t = some .running) : w.Lined (l.set t none) where
  nodup := h.nodup
  ready {s u} := by
    rw [h.ready, Lanes.set_apply]
    split
    · next e => simp [e, ht]
    · rfl
  live {u} hu := by
    rw [Lanes.set_apply] at hu
    split at hu
    · exact absurd rfl hu
    · exact h.live hu
  waiting {g x p} hx hp := by
    refine (h.waiting hx hp).imp_right fun hw => ?_
    rwa [Lanes.set_of_ne _ _ fun e => ?_]
    rw [e, ht] at hw
    cases hw
  member := h.member

/-- A task that was being resumed comes to wait for a group. -/
theorem opening (h : w.Lined l) (ht : l t = some .running) (s : Nat) (g : GroupRef) :
    (w.opening s t g).Lined (l.set t (some (.waiting g.id))) where
  nodup := h.nodup
  ready {s' u} := by
    rw [Lanes.set_apply]
    refine (h.ready (s := s')).trans ?_
    split
    · next e => simp [e, ht]
    · rfl
  live {u} hu := by
    by_cases e : u = t
    · exact h.live (by rw [e, ht]; nofun)
    · exact h.live (by rwa [Lanes.set_of_ne _ _ e] at hu)
  waiting {g' x p} hx hp := by
    rw [get?_groups_opening] at hx
    by_cases hg : g.id = g'.id
    · rw [if_pos hg] at hx
      obtain ⟨y, -, rfl⟩ := Option.map_eq_some_iff.mp hx
      cases hp
      exact .inr (by rw [Lanes.set_self, hg])
    · rw [if_neg hg] at hx
      have hx' : (w.opening s t g).groups.get? g'.id = some x := by
        rw [get?_groups_opening, if_neg hg, hx]
      refine (h.waiting hx hp).imp (quiescent_mono hx hx' fun _ => id) fun hw => ?_
      rwa [Lanes.set_of_ne _ _ fun e => ?_]
      rw [e, ht] at hw
      cases hw
  member {u x g'} hx hg' := by
    obtain ⟨y, hy, ha, hm⟩ := h.member (w := w) hx hg'
    rw [get?_groups_opening]
    by_cases hg : g.id = g'.id
    · exact ⟨{ y with awaitedBy := some t }, by rw [if_pos hg, hy]; rfl, nofun, hm⟩
    · exact ⟨y, by rw [if_neg hg, hy], ha, hm⟩

/-- A task that does not exist is in no lane. -/
theorem eq_none_of_size_le (h : w.Lined l) (ht : w.tasks.size ≤ t) : l t = none := by
  by_contra hne
  obtain ⟨x, hx, -⟩ := h.live hne
  exact absurd (Table.lt_size_of_get? hx) (Nat.not_lt.mpr ht)

/-- A new row makes no difference to the lanes. -/
theorem push (h : w.Lined l) {x : Task} (hqueue : ∀ s, w'.queue s = w.queue s)
    (hrow : ∀ u, w'.tasks.get? u = if u = w.tasks.size then some x else w.tasks.get? u)
    (hwait : ∀ {g : GroupRef} {y p}, w'.groups.get? g.id = some y → y.awaitedBy = some p →
      w.groups.get? g.id = some y ∨ l p = some (.waiting g.id))
    (hmember : ∀ {g : GroupRef}, x.group = some g →
      ∃ y, w'.groups.get? g.id = some y ∧ y.awaitedBy ≠ none ∧ w.tasks.size ∈ y.tasks)
    (hmembers : ∀ {i y}, w.groups.get? i = some y → y.awaitedBy ≠ none →
      ∃ y', w'.groups.get? i = some y' ∧ y'.awaitedBy ≠ none ∧ y.tasks ⊆ y'.tasks) : w'.Lined l := by
  have hold : ∀ {u z}, w.tasks.get? u = some z → w'.tasks.get? u = some z := fun hz =>
    (hrow _).trans ((if_neg (Table.ne_size_of_get? hz)).trans hz)
  refine ⟨fun s => hqueue s ▸ h.nodup s, fun {s t} => hqueue s ▸ h.ready, fun {u} hu => ?_,
    fun {g y p} hy hp => ?_, fun {u z g} hz hg => ?_⟩
  · obtain ⟨z, hz, hlive⟩ := h.live hu
    exact ⟨z, hold hz, hlive⟩
  · refine (hwait hy hp).elim (fun hy₀ => (h.waiting hy₀ hp).imp_left ?_) .inr
    refine quiescent_mono hy₀ hy fun u hu => ?_
    obtain ⟨o, ho⟩ := Option.isSome_iff_exists.mp hu
    obtain ⟨z, hz, ho⟩ := Option.bind_eq_some_iff.mp ho
    rw [taskOutcome?_of_get? (hold hz), ho]
    rfl
  · rw [hrow] at hz
    split at hz
    · next e =>
        cases hz
        exact e ▸ hmember hg
    · obtain ⟨y, hy, ha, hm⟩ := h.member hz hg
      obtain ⟨y', hy', ha', hsub⟩ := hmembers hy ha
      exact ⟨y', hy', ha', hsub hm⟩

end Lined

/-! ### The members of a group -/

/-- The tasks of the members that could be claimed, if new tasks are numbered from `n` on. -/
def claimed : List (Option Failure) → (n : Nat) → List Nat
  | [], _ => []
  | none :: claims, n => n :: claimed claims (n + 1)
  | some _ :: claims, n => claimed claims (n + 1)

theorem le_of_mem_claimed {claims : List (Option Failure)} {n u : Nat} (h : u ∈ claimed claims n) :
    n ≤ u := by
  induction claims generalizing n with
  | nil => cases h
  | cons claim claims ih =>
      cases claim with
      | none =>
          rcases List.mem_cons.mp h with rfl | h
          · exact Nat.le_refl _
          · exact Nat.le_of_succ_le (ih h)
      | some f => exact Nat.le_of_succ_le (ih h)

theorem row_of_startMember (w : World β σ) (s : Nat) (g : GroupRef) (index : Nat) (c : CoroutineRef) :
    (w.startMember s g index c).tasks.size = w.tasks.size + 1 ∧ ∃ x,
      (w.startMember s g index c).tasks.get? w.tasks.size = some x ∧ x.group = some g ∧ x.index = index := by
  obtain ⟨id, w₁, he, hrow, hsize, -⟩ := w.addMember_spec s g index c
  have hself := (hrow w.tasks.size).trans (if_pos rfl)
  have hclaim := tasks_claim w₁ c (w₁.taskId w.tasks.size)
  simp only [World.startMember, he]
  rcases hcl : w₁.claim c (w₁.taskId w.tasks.size) with ⟨- | f, w₂⟩ <;> rw [hcl] at hclaim
  · exact ⟨by rw [tasks_enqueue, hclaim, hsize], _, by rw [tasks_enqueue, hclaim, hself], rfl, rfl⟩
  · have hrow₂ : w₂.tasks.get? w.tasks.size = _ := hclaim ▸ hself
    exact ⟨by rw [size_tasks_modifyTask, hclaim, hsize], _,
      (get?_modifyTask_of_get? hrow₂ _ _).trans (if_pos rfl), rfl, rfl⟩

/-- The new tasks are the members of the group that is started, in their order. -/
theorem rows_of_startMembers (w : World β σ) (s : Nat) (g : GroupRef) (index : Nat)
    (cs : List CoroutineRef) :
    (w.startMembers s g index cs).tasks.size = w.tasks.size + cs.length ∧ ∀ {u x}, w.tasks.size ≤ u →
      (w.startMembers s g index cs).tasks.get? u = some x →
        x.group = some g ∧ x.index + w.tasks.size = index + u := by
  induction cs generalizing w index with
  | nil => exact ⟨rfl, fun hu hx => absurd (Table.lt_size_of_get? hx) (Nat.not_lt.mpr hu)⟩
  | cons c rest ih =>
      obtain ⟨hsize, y, hy, hg, hi⟩ := row_of_startMember w s g index c
      obtain ⟨hsizes, hrows⟩ := ih (w.startMember s g index c) (index + 1)
      refine ⟨hsizes.trans (by rw [hsize, List.length_cons]; omega), fun {u x} hu hx => ?_⟩
      rcases Nat.eq_or_lt_of_le hu with rfl | hu
      · have hkept := (Touches.startMembers (T := fun _ => False) (A := fun _ => False) (G := (· = g.id))
          (w.startMember s g index c) s rfl (index + 1) rest).same id id hy
        cases hkept.symm.trans hx
        exact ⟨hg, by rw [hi]⟩
      · obtain ⟨hg, hi⟩ := hrows (hsize ▸ hu) hx
        exact ⟨hg, by omega⟩

/-- A group is awaited by a task that waits for it. -/
def Opened (w : World β σ) (l : Lanes) (g : GroupRef) (t : Nat) : Prop :=
  l t = some (.waiting g.id) ∧ ∃ x, w.groups.get? g.id = some x ∧ x.awaitedBy = some t

namespace Lined

theorem addMember {g : GroupRef} (h : w.Lined l) (hg : w.Opened l g t) (s index : Nat) (c : CoroutineRef) :
    (w.addMember s g index c).2.Lined l ∧ (w.addMember s g index c).2.Opened l g t := by
  obtain ⟨id, w', he, hrow, -, -, hgroups, hctx⟩ := w.addMember_spec s g index c
  obtain ⟨hl, x, hx, ha⟩ := hg
  have hself : w'.groups.get? g.id = some { x with tasks := x.tasks ++ [w.tasks.size] } := by
    rw [hgroups, if_pos rfl, hx, Option.map_some]
  rw [he]
  refine ⟨h.push (fun s => queue_congr (hctx s)) hrow (fun {g' y p} hy hp => ?_) (fun {g'} hg' => ?_)
    fun {i y} hy hp => ?_, hl, _, hself, ha⟩
  · by_cases e : g.id = g'.id
    · rw [← e, hself] at hy
      cases hy
      cases ha.symm.trans hp
      exact .inr (e ▸ hl)
    · rw [hgroups, if_neg e] at hy
      exact .inl hy
  · cases hg'
    exact ⟨_, hself, by simp [ha], List.mem_append_right _ List.mem_cons_self⟩
  · by_cases e : g.id = i
    · subst e
      cases hx.symm.trans hy
      exact ⟨_, hself, hp, List.subset_append_left ..⟩
    · exact ⟨y, by rw [hgroups, if_neg e, hy], hp, List.Subset.refl _⟩

/-- A new member joins the queue if it could be claimed. -/
theorem startMember {g : GroupRef} (h : w.Lined l) (hg : w.Opened l g t)
    (hs : ∃ ctx, w.context? s = some ctx) (index : Nat) (c : CoroutineRef) :
    ∃ l', (w.startMember s g index c).Lined l' ∧ (w.startMember s g index c).Opened l' g t ∧
      (∀ u < w.tasks.size, l' u = l u) ∧
      Grows s (claimed [(w.claim c 0).1] w.tasks.size) w (w.startMember s g index c) := by
  obtain ⟨hadd, hopened⟩ := h.addMember hg s index c
  obtain ⟨id, w₁, he, hrow, -, hhandles, -, hctx⟩ := w.addMember_spec s g index c
  rw [he] at hadd hopened
  have hnone : l w.tasks.size = none := h.eq_none_of_size_le (Nat.le_refl _)
  have hself := (hrow w.tasks.size).trans (if_pos rfl)
  have hclaim : (w₁.claim c (w₁.taskId w.tasks.size)).1 = (w.claim c 0).1 := by
    rw [claim_fst, claim_fst, claimable, hhandles, claimable]
  have hqueue : Grows s [] w w₁ := .of_eq fun s' => queue_congr (hctx s')
  simp only [World.startMember, he]
  rcases hcl : w₁.claim c (w₁.taskId w.tasks.size) with ⟨- | f, w₂⟩ <;> rw [hcl] at hclaim <;>
    rw [← hclaim]
  · obtain ⟨y, -, -, -, rfl⟩ := claim_eq_none hcl
    have hs₂ : ∃ ctx, (w₁.modifyHandle c (·.ownedBy (w₁.taskId w.tasks.size))).context? s = some ctx :=
      hs.imp fun _ hc => (hctx s).trans hc
    obtain ⟨hl, hgroup⟩ := hopened
    refine ⟨_, (hadd.modifyHandle ..).enqueue hs₂ ⟨_, hself, by simp, rfl⟩ ?_ ?_, ⟨?_, hgroup⟩, ?_, ?_⟩
    · simp [hnone]
    · simp [hnone]
    · rw [Lanes.set_of_ne _ _ fun e => ?_, hl]
      rw [e, hnone] at hl
      cases hl
    · exact fun u hu => Lanes.set_of_ne _ _ (Nat.ne_of_lt hu)
    · exact (hqueue.trans (.of_eq fun _ => rfl)).trans (.enqueue hs₂ _)
  · obtain rfl := claim_eq_some hcl
    refine ⟨l, hadd.modifyTask (by exact fun _ => rfl) (by exact fun _ _ => rfl)
      (fun hl => absurd hnone hl), hopened, fun _ _ => rfl, ?_⟩
    exact hqueue.trans (.of_eq fun _ => rfl)

/-- The members of a group join the queue in their order, but for those that cannot be claimed. -/
theorem startMembers {g : GroupRef} (h : w.Lined l) (hg : w.Opened l g t)
    (hs : ∃ ctx, w.context? s = some ctx) (index : Nat) (cs : List CoroutineRef) :
    ∃ l', (w.startMembers s g index cs).Lined l' ∧ (w.startMembers s g index cs).Opened l' g t ∧
      (∀ u < w.tasks.size, l' u = l u) ∧
      Grows s (claimed (w.claims cs) w.tasks.size) w (w.startMembers s g index cs) := by
  induction cs generalizing w l index with
  | nil => exact ⟨l, h, hg, fun _ _ => rfl, .of_eq fun _ => rfl⟩
  | cons c rest ih =>
      obtain ⟨l₁, h₁, hg₁, hl₁, hq₁⟩ := h.startMember hg hs index c
      have hs₁ := (Touches.startMember (T := fun _ => False) (A := fun _ => False) (G := (· = g.id))
        w s rfl index c).active hs
      have hsize := (row_of_startMember w s g index c).1
      obtain ⟨l₂, h₂, hg₂, hl₂, hq₂⟩ := ih h₁ hg₁ hs₁ (index + 1)
      refine ⟨l₂, h₂, hg₂, fun u hu => ?_, ?_⟩
      · exact (hl₂ u (by omega)).trans (hl₁ u hu)
      · have hq := hq₁.trans hq₂
        rw [claims_congr (slot_startMember w s g index c).2, hsize] at hq
        rw [claims]
        cases hcl : (w.claim c 0).1 <;> rw [hcl] at hq <;> exact hq

end Lined

end World

end Coroutines
