import Coroutines.Proofs.Fairness.Kept
import Coroutines.Proofs.Joining.Once

/-!
# Runs are fair

A run resumes the tasks in its queue in the order in which they came there (`World.Halted.rounds`).  So a
task that goes back to the queue is resumed again after each of the tasks that it found there was resumed
once, and before any that came later; and the members of a group come to be resumed in their order.
-/

namespace Coroutines

namespace World

variable {β σ α γ : Type} {w w' : World β σ} {l : Lanes} {s t : Nat}

section

variable (resume : CoroutineRef → Input → World β σ → Except Abort Step × World β σ)

/-- A run that was at its loop head comes to its loop head again, after turns that resumed the coroutines of
some tasks. -/
inductive Rounds (s : Nat) (w : World β σ) : List Nat → World β σ → Prop
  | refl : Rounds s w [] w
  | more {t : Nat} {ts : List Nat} {w₁ w₂ w₃ : World β σ} (h : Rounds s w ts w₁)
      (hd : w₁.dequeue s = some (t, w₂)) (hs : w₂.step resume s t = (.ok (), w₃)) :
      Rounds s w (ts ++ (w₂.resumed resume s t).map fun _ => t) w₃

end

/-- The turns of a run resume tasks. -/
theorem Turns.rounds {resume : CoroutineRef → Input → World β σ → Except Abort Step × World β σ}
    {log : List (CoroutineRef × Step)} (h : Turns resume s w log w') :
    ∃ ts, Rounds resume s w ts w' ∧ ts.length = log.length := by
  induction h with
  | refl => exact ⟨[], .refl, rfl⟩
  | more _ hd hs ih =>
      obtain ⟨ts, hrounds, hlength⟩ := ih
      exact ⟨_, hrounds.more hd hs, by simp [hlength]⟩

section

variable {bodies : Bodies β σ} {depth : Nat} {ts : List Nat} {w₁ w₂ w₃ : World β σ}

/-- A turn resumes a coroutine of the task that was at the head of the queue, and may put tasks at the end. -/
theorem Halted.turn (h : w₁.Halted [] fun _ => none) (hd : w₁.dequeue s = some (t, w₂))
    (hs : w₂.step (resume bodies depth) s t = (.ok (), w₃)) :
    (w₃.Halted [] fun _ => none) ∧ ((w₂.resumed (resume bodies depth) s t).map fun _ => t) = [t] ∧
      w₁.queue s = t :: w₂.queue s ∧ ∃ new, w₃.queue s = w₂.queue s ++ new ∧ (t ∈ new → new = [t]) := by
  obtain ⟨hstep, -, hnew⟩ := h.step (Halted.keeping_resume bodies depth) rfl hd
  rw [hs] at hstep hnew
  refine ⟨hstep, ?_, (queue_of_dequeue hd).1, hnew rfl⟩
  obtain ⟨l, hl, hrun⟩ := (h.dequeue rfl hd).lined
  obtain ⟨x, hx, hchain, -⟩ := hl.live (t := t) (by rw [hrun t List.mem_cons_self]; nofun)
  obtain ⟨top, rest, hchain⟩ := List.exists_cons_of_ne_nil hchain
  simp only [World.step] at hs
  simp only [resumed]
  rcases takeUp_cases (s := s) hx hchain with ⟨limit, e⟩ | e
  · rw [e] at hs
    cases hs
  · obtain ⟨w₄, e⟩ : ∃ w₄, w₂.takeUp s t = (.ok (some (top, x.inbox)), w₄) := ⟨_, e⟩
    rcases hr : World.resume bodies depth top x.inbox w₄ with ⟨e' | step, v⟩ <;> simp only [e, hr] at hs ⊢
    · cases hs
    · rfl

/-- **The queue is first in, first out**: what was resumed, and what is in the queue then, is what was in
the queue, and what came there. -/
theorem Halted.rounds (h : w.Halted [] fun _ => none) (hr : Rounds (resume bodies depth) s w ts w') :
    (w'.Halted [] fun _ => none) ∧ ∃ new, ts ++ w'.queue s = w.queue s ++ new := by
  induction hr with
  | refl => exact ⟨h, [], (List.append_nil _).symm⟩
  | more _ hd hs ih =>
      obtain ⟨hw, new, hq⟩ := ih
      obtain ⟨hw', hts, hhead, new', hq', -⟩ := hw.turn hd hs
      refine ⟨hw', new ++ new', ?_⟩
      rw [hts, hq', ← List.append_assoc _ new, ← hq, hhead]
      simp

/-- The tasks in the queue are the next to be resumed. -/
theorem Halted.next (h : w.Halted [] fun _ => none) (hr : Rounds (resume bodies depth) s w ts w') :
    ts <+: w.queue s ∨ w.queue s <+: ts := by
  obtain ⟨-, new, hq⟩ := h.rounds hr
  exact List.prefix_or_prefix_of_prefix (List.prefix_append ts (w'.queue s))
    (hq ▸ List.prefix_append (w.queue s) new)

theorem Halted.nodup (h : w.Halted [] fun _ => none) (s : Nat) : (w.queue s).Nodup := by
  obtain ⟨l, hl, -⟩ := h.lined
  exact hl.nodup s

/-- A task that is at the end of the queue is resumed after those before it. -/
theorem Halted.before {q : List Nat} (h : w.Halted [] fun _ => none) (hq : w.queue s = q ++ [t])
    (hr : Rounds (resume bodies depth) s w ts w') (ht : t ∉ ts) :
    ts <+: q ∧ ∀ {w''}, w'.dequeue s = some (t, w'') → ts = q := by
  obtain ⟨-, new, he⟩ := h.rounds hr
  have hnodup := h.nodup s
  rw [hq] at hnodup
  have htq : t ∉ q := fun hm => (List.nodup_append.mp hnodup).2.2 t hm t (List.mem_singleton_self t) rfl
  have hahead : ts <+: q := by
    rcases h.next hr with hp | hp <;> rw [hq] at hp
    · refine (List.prefix_concat_iff.mp hp).resolve_left fun e => ht ?_
      rw [e]
      exact List.mem_concat_self
    · exact absurd (hp.subset List.mem_concat_self) ht
  refine ⟨hahead, fun hd => ?_⟩
  obtain ⟨rest, rfl⟩ := hahead
  rw [hq, (queue_of_dequeue hd).1, List.append_assoc, List.append_assoc, List.append_cancel_left_eq] at he
  cases rest with
  | nil => exact (List.append_nil _).symm
  | cons u rest =>
      obtain ⟨rfl, -⟩ := List.cons.inj he
      exact absurd (List.mem_append_right _ List.mem_cons_self) htq

/-- A turn that opens a group puts the tasks of its members into the queue, those of the members that could
be claimed, in the order of the members. -/
theorem Halted.joins {g : GroupRef} {top : CoroutineRef} {v : World β σ} (h : w.Halted [] fun _ => none)
    (hj : Joins (resume bodies depth) s w t top g v w') : ∃ q x, w.queue s = t :: q ∧
      v.groups.get? g.id = some x ∧
      (∀ j < x.handles.length, v.tasks.get? (v.tasks.size + j) = none ∧
        ∃ z, w'.tasks.get? (v.tasks.size + j) = some z ∧ z.group = some g ∧ z.index = j) ∧
      (w'.queue s = q ++ claimed (v.claims x.handles) v.tasks.size ∨
        claimed (v.claims x.handles) v.tasks.size = [] ∧ w'.queue s = q ++ [t]) := by
  obtain ⟨w₁, w₂, input, hd, ht, hr, hfree, habsorb⟩ := hj
  have htaken := (h.dequeue rfl hd).takeUp s t
  rw [ht] at htaken
  have hresumed := Halted.keeping_resume bodies depth _ _ top input htaken
  rw [hr] at hresumed
  obtain ⟨l, hl, hrun⟩ := hresumed.lined
  obtain ⟨ctx, hc, hq⟩ := hresumed.queues (Function.update_self ..)
  have ht := hrun t List.mem_cons_self
  have hmark : (v.modifyTask t fun x => { x with state := .suspended }).Lined l :=
    hl.modifyTask (fun _ => rfl) (fun _ => id) fun _ _ _ hc ho => ⟨hc, ho⟩
  obtain ⟨y, hy, -⟩ := hl.live (t := t) (by simp [ht])
  obtain ⟨x, hx, -⟩ := groupTaken_eq_false_iff.mp hfree
  have hstart : w' = ((v.modifyTask t fun x => { x with state := .suspended }).startGroup s t g).2 := by
    rw [World.absorb, suspend_of_free hfree] at habsorb
    rw [habsorb]
  obtain ⟨l', new, honward, hnew⟩ := hmark.startGroup ht ⟨ctx, hc⟩ (g := g) (x := x) hx
  have hqueue : w'.queue s = w₁.queue s ++ new := by
    rw [hstart, honward.queue.self, ← hq, queue]
    simp [hc]
  have hclaims : (v.modifyTask t fun x => { x with state := .suspended }).claims x.handles =
      v.claims x.handles := by
    have hsame : ∀ i, (v.modifyTask t fun x => { x with state := .suspended }).claimable i =
        v.claimable i := fun _ => rfl
    exact claims_congr hsame _
  rw [hclaims, size_tasks_modifyTask] at hnew
  refine ⟨w₁.queue s, x, (queue_of_dequeue hd).1, hx, fun j hj => ⟨?_, ?_⟩, ?_⟩
  · exact Table.get?_eq_none_iff.mpr (Nat.le_add_right ..)
  · have hrow := rows_startGroup (w := v.modifyTask t fun x => { x with state := .suspended }) hx
      (by rw [size_tasks_modifyTask]; exact Table.lt_size_of_get? hy) s hj
    rw [size_tasks_modifyTask, ← hstart] at hrow
    exact hrow
  · rcases hnew with rfl | ⟨hnone, rfl⟩
    · exact .inl hqueue
    · exact .inr ⟨hnone, hqueue⟩

/-! ### The run as a whole -/

/-- **The ready queue is fair**, whatever the bodies do and wherever the run is asked for.  A task `t` that
is back in the queue after one of its turns is behind the tasks `q` that were there, each once.  Until it is
resumed again the run resumes these in their order and nothing else, and it has resumed them all when it
takes `t` up again.  When a group is opened, its members get new tasks, and after the tasks that were in the
queue the run resumes those of the members that could be claimed, in the order of the members. -/
theorem Moment.round_robin {limits : List (Option Number)} {shared : σ} {rest : Rest β σ γ α} {root : Nat}
    {c : CoroutineRef} {next : Except Record Value → Action β σ α}
    (hm : Moment limits shared bodies rest (.run s c next) depth w) (hs : w.start s c = (.ok root, w₁))
    (hr : Rounds (resume bodies depth) s w₁ ts w₂) :
    (∀ {t w' w₃}, w₂.dequeue s = some (t, w') → w'.step (resume bodies depth) s t = (.ok (), w₃) →
      t ∈ w₃.queue s → ∃ q, w₂.queue s = t :: q ∧ w₃.queue s = q ++ [t] ∧ (q ++ [t]).Nodup ∧
        ∀ {us w₄}, Rounds (resume bodies depth) s w₃ us w₄ → t ∉ us →
          us <+: q ∧ ∀ {w₅}, w₄.dequeue s = some (t, w₅) → us = q) ∧
    (∀ {t top g v w₃}, Joins (resume bodies depth) s w₂ t top g v w₃ → ∃ q x,
      w₂.queue s = t :: q ∧ v.groups.get? g.id = some x ∧
      (∀ j < x.handles.length, v.tasks.get? (v.tasks.size + j) = none ∧
        ∃ z, w₃.tasks.get? (v.tasks.size + j) = some z ∧ z.group = some g ∧ z.index = j) ∧
      ∀ {us w₄}, Rounds (resume bodies depth) s w₃ us w₄ →
        us <+: q ++ claimed (v.claims x.handles) v.tasks.size ∨
          q ++ claimed (v.claims x.handles) v.tasks.size <+: us) := by
  have hstart := (hm.halted.start s c).1
  rw [hs] at hstart
  obtain ⟨hhalted, -⟩ := hstart.rounds hr
  refine ⟨fun {t w' w₃} hd hstep hback => ?_, fun {t top g v w₃} hj => ?_⟩
  · obtain ⟨hw₃, -, hhead, new, hq, hnew⟩ := hhalted.turn hd hstep
    have hnodup := hhalted.nodup s
    rw [hhead, List.nodup_cons] at hnodup
    rw [hq] at hback
    rw [hnew ((List.mem_append.mp hback).resolve_left hnodup.1)] at hq
    exact ⟨_, hhead, hq, hq ▸ hw₃.nodup s, fun hr' ht => hw₃.before hq hr' ht⟩
  · obtain ⟨q, x, hhead, hx, hrows, hq⟩ := hhalted.joins hj
    have hw₃ : w₃.Halted [] fun _ => none := by
      obtain ⟨w', w'', input, hd, ht, hres, -, habsorb⟩ := hj
      have hstep : w'.step (resume bodies depth) s t = (.ok (), w₃) := by
        simp only [World.step, ht, hres, habsorb]
      exact (hhalted.turn hd hstep).1
    refine ⟨q, x, hhead, hx, hrows, fun hr' => ?_⟩
    have hnext := hw₃.next hr'
    rcases hq with hq | ⟨hnone, hq⟩ <;> rw [hq] at hnext
    · exact hnext
    · -- no member could be claimed, and the task that opened the group is behind the others
      rw [hnone, List.append_nil]
      refine hnext.elim (fun hp => ?_) fun hp => .inr ((List.prefix_append ..).trans hp)
      refine (List.prefix_concat_iff.mp hp).elim (fun e => .inr ?_) .inl
      exact e ▸ List.prefix_append ..

end

end World

/-! ### A small program -/

/-- The bodies of three kinds of coroutines: `some true` gathers two of kind `some false`, which await one of
kind `none` each, and this returns at once. -/
def alternating : Bodies (Option Bool) Unit where
  resume
    | some true, frame, .start =>
      .spawn "left" (some false) [] fun a => .spawn "right" (some false) [] fun b =>
        .joinAll 0 [a, b] false fun
          | .ok g => .done (.ok (frame, .await (.group g)))
          | .error r => .raise r
    | some false, frame, .start =>
      .spawn "leaf" none [] fun c => .done (.ok (frame, .await (.coroutine c)))
    | _, frame, _ => .done (.ok (frame, .ret .none))
  forgets _ := true

/-- The gathering coroutine is there, and nothing has been run. -/
def alternatingCreated : World (Option Bool) Unit :=
  ((World.initial [none] ()).spawn "main" (some true) []).2

/-- The gathering coroutine before its first turn. -/
def alternatingStarts : World (Option Bool) Unit := (alternatingCreated.start 0 ⟨0, "main"⟩).2

/-- A world after a turn of a task that leaves a queue behind. -/
def alternatingTurn (w : World (Option Bool) Unit) (t : Nat) (q : List Nat) : World (Option Bool) Unit :=
  ((w.modifyContext 0 fun ctx => { ctx with ready := q }).step (World.resume alternating 1) 0 t).2

/-- The gathering coroutine waits for its group. -/
def alternatingOpened : World (Option Bool) Unit := alternatingTurn alternatingStarts 0 []

/-- The first member has awaited a coroutine, and its task is back in the queue. -/
def alternatingBack : World (Option Bool) Unit := alternatingTurn alternatingOpened 1 [2]

/-- The task of the first member goes behind the one of the second, and the members come in their order. -/
theorem alternating_round_robin : alternatingBack.queue 0 = [2, 1] ∧
    (∀ {us w}, World.Rounds (World.resume alternating 1) 0 alternatingBack us w → 1 ∉ us →
      us <+: [2] ∧ ∀ {w'}, w.dequeue 0 = some (1, w') → us = [2]) ∧
    ∀ {us w}, World.Rounds (World.resume alternating 1) 0 alternatingOpened us w → us <+: [1, 2] ∨ [1, 2] <+: us := by
  have hm : World.Moment [none] () alternating .done (.run 0 ⟨0, "main"⟩ Action.ofOutcome) 1 alternatingCreated :=
    ⟨.spawn "main" (some true) [] fun c => .run 0 c Action.ofOutcome, 1, _, .refl, .request .refl rfl⟩
  have hs : alternatingCreated.start 0 ⟨0, "main"⟩ = (.ok 0, alternatingStarts) := rfl
  have hd : alternatingStarts.dequeue 0 =
      some (0, alternatingStarts.modifyContext 0 fun ctx => { ctx with ready := [] }) := rfl
  have hj : World.Joins (World.resume alternating 1) 0 alternatingStarts 0 ⟨0, "main"⟩ ⟨0, 2⟩ _ alternatingOpened :=
    ⟨_, _, _, hd, rfl, rfl, rfl, rfl⟩
  have hr : World.Rounds (World.resume alternating 1) 0 alternatingStarts [0] alternatingOpened := .more .refl hd rfl
  have hd' : alternatingOpened.dequeue 0 =
      some (1, alternatingOpened.modifyContext 0 fun ctx => { ctx with ready := [2] }) := rfl
  have hstep : (alternatingOpened.modifyContext 0 fun ctx => { ctx with ready := [2] }).step
      (World.resume alternating 1) 0 1 = (.ok (), alternatingBack) := rfl
  obtain ⟨q, hq, hback, -, hnext⟩ := (hm.round_robin hs hr).1 hd' hstep (by decide)
  obtain ⟨q', x, hq', hx, -, hmembers⟩ := (hm.round_robin hs .refl).2 hj
  obtain rfl : q = [2] := (List.cons.inj hq).2.symm
  obtain rfl : q' = [] := (List.cons.inj hq').2.symm
  cases hx
  exact ⟨hback, hnext, hmembers⟩

end Coroutines
