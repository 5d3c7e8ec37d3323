import Coroutines.Proofs.Ownership.Groups

/-!
# One turn in a sound world

A turn of a run takes up the task at the head of the queue, resumes its coroutine and lets the task
go on from there.  From a sound world the resume is never refused, and whatever step it ends with,
the world is sound again.
-/

namespace Coroutines

namespace World

variable {β σ : Type} {w w' : World β σ} {l : Standing} {base : Nat → Start}
variable {opened : Option Nat}

/-- Soundness is a matter of four tables. -/
theorem Sound.of_tables (h : w.Sound l base opened) (hhandles : w'.handles = w.handles)
    (hgroups : w'.groups = w.groups) (htasks : w'.tasks = w.tasks)
    (hctx : ∀ s, w'.context? s = w.context? s) : w'.Sound l base opened where
  queued := h.queued.mono hctx
  chained := h.chained.mono (fun hx => by rw [htasks, hx]) (fun hx => by rw [hhandles, hx])
    fun hc => by
      rw [hctx] at hc
      exact ⟨hc, h.queued.root hc⟩
  grouped := h.grouped.same (fun _ => by rw [hgroups]) (fun _ => by rw [htasks]) (by rw [htasks])
    fun hc => ⟨_, (hctx _).trans hc, rfl⟩

/-! ### Taking up -/

/-- The task at the head of the queue has a coroutine that takes the task's input; while the
coroutine runs, the task is the one that the run is at. -/
theorem Sound.takeUp {s t : Nat} (h : w.Sound l base none)
    (hcalm : l.Calm s) (hd : w.dequeue s = some (t, w')) :
    ∃ x top rest y, w.tasks.get? t = some x ∧ x.chain = top :: rest ∧ l t = some (s, .ready) ∧
      w.handles.get? top.id = some y ∧ y.refusal? x.inbox = none ∧
      ((∃ limit w'', w'.takeUp s t = (.error (.raise (.budget limit)), w'') ∧
          w''.handles = w.handles ∧ w''.groups = w.groups ∧ w''.tasks = w.tasks ∧
          ∀ s', s' ≠ s → w''.context? s' = w.context? s') ∨
        ∃ w'', w'.takeUp s t = (.ok (some (top, x.inbox)), w'') ∧ w''.handles = w.handles ∧
          ∀ forgets, (w''.modifyHandle top (·.entered forgets)).Sound (l.set t s (.current top)) base
            none) := by
  obtain ⟨ctx, queue, hc, hq, rfl⟩ := dequeue_eq_some hd
  have ht : l t = some (s, .ready) := (h.queued.ready hc t).mp (by simp [hq])
  obtain ⟨x, hx, hh⟩ := h.chained.holds ht
  obtain ⟨top, rest, hchain⟩ := hh.exists_head nofun
  obtain ⟨y, hy, hy'⟩ := hh.head top (by simp [hchain])
  refine ⟨x, top, rest, y, hx, hchain, ht, hy, Handle.refusal?_eq_none_iff.mpr hy', ?_⟩
  rcases takeUp_cases (w := w.modifyContext s fun ctx => { ctx with ready := queue }) (s := s)
    hx hchain with ⟨limit, he⟩ | he
  · -- the budget is spent: only the run's own context is touched
    refine .inl ⟨limit, _, he, rfl, rfl, rfl, fun s' hs => ?_⟩
    rw [context?_emit, context?_modifyContext, if_neg (Ne.symm hs), context?_modifyContext,
      if_neg (Ne.symm hs)]
  · refine .inr ⟨_, he, rfl, fun forgets => ?_⟩
    set w₁ := (((w.modifyContext s fun ctx => { ctx with ready := queue }).modifyContext s
      fun ctx => { ctx with steps := ctx.steps + 1 }).modifyTask t fun x =>
        { x with state := .running, inbox := .start }).modifyHandle top (·.entered forgets)
      with hw₁
    have hget : ∀ i, w₁.handles.get? i =
        if top.id = i then some (y.entered forgets) else w.handles.get? i :=
      get?_modifyHandle_of_get? hy (·.entered forgets)
    have hrow : ∀ u, w₁.tasks.get? u =
        if u = t then some { x with state := .running, inbox := .start } else w.tasks.get? u :=
      get?_modifyTask_of_get? hx fun x => { x with state := .running, inbox := .start }
    have hctx : ∀ s', w₁.context? s' =
        if s = s' then some { ctx with ready := queue, steps := ctx.steps + 1 }
        else w.context? s' := by
      intro s'
      rw [hw₁, context?_modifyHandle, context?_modifyTask, context?_modifyContext,
        context?_modifyContext]
      split
      · next e => rw [← e, hc]; rfl
      · rfl
    refine ⟨?queued, ?chained, ?grouped⟩
    case queued =>
      exact h.queued.set_current hcalm hc hq ((hctx s).trans (if_pos rfl)) rfl fun s' e =>
        (hctx s').trans (if_neg (Ne.symm e))
    case chained =>
      refine h.chained.turn ht hx hrow (fun i hi _ => ?_) (fun _ => .inl) ?_ .inl
        fun {s' ctx'} hc' => ?_
      · exact (hget i).trans (if_neg (hi top (by simp [hchain])))
      · exact hh.move_head nofun nofun rfl rfl rfl hchain hy hget rfl
          ⟨rfl, ⟨_, (hget _).trans (if_pos rfl), rfl⟩, rfl⟩
      · rw [hctx] at hc'
        split at hc'
        · next e =>
            cases hc'
            exact ⟨ctx, e ▸ hc, rfl⟩
        · exact ⟨ctx', hc', rfl⟩
    case grouped =>
      have hset : w.Grouped (l.set t s (.current top)) none :=
        h.grouped.set ht nofun nofun nofun nofun nofun
      refine hset.same (fun _ => rfl) (map_group_of_row hx hrow rfl) (Table.size_modify ..)
        fun {s' ctx'} hc' => ?_
      rw [hctx]
      split
      · next e =>
          rw [← e, hc] at hc'
          cases hc'
          exact ⟨_, rfl, rfl⟩
      · exact ⟨ctx', hc', rfl⟩

/-! ### Going on -/

/-- The task that was resumed goes to the end of the queue. -/
theorem Sound.requeue {s t : Nat} {x x' : Task} {top : CoroutineRef} (h : w.Sound l base none)
    (ht : l t = some (s, .current top)) (hx : w.tasks.get? t = some x) (hgroup : x'.group = x.group)
    (hrow : ∀ u, w'.tasks.get? u = if u = t then some x' else w.tasks.get? u)
    (hsize : w'.tasks.size = w.tasks.size) (hgroups : w'.groups = w.groups)
    (hrows : ∀ i, (∀ c ∈ x.chain, c.id ≠ i) → ¬ w.Free i →
      w'.handles.get? i = w.handles.get? i)
    (hfree : ∀ c ∈ x'.chain, c ∈ x.chain ∨ w.Free c.id) (hholds : w'.Holds x' .ready)
    (hkeep : ∀ {c}, c ∈ x.chain → c ∈ x'.chain ∨ w'.Finished c)
    (hctx : ∀ s', w'.context? s' = if s = s' then
      (w.context? s').map fun ctx => { ctx with ready := ctx.ready ++ [t] } else w.context? s') :
    w'.Sound (l.set t s .ready) base none := by
  have hroot : ∀ s', w'.context? s' = (w.enqueue s t).context? s' := fun s' => by
    rw [hctx, context?_enqueue]
  refine ⟨?_, ?_, ?_⟩
  · refine h.queued.set_ready (h.queued.active ht) (fun s' q hq => ?_) hctx
    rw [ht] at hq
    cases hq
    exact ⟨rfl, nofun⟩
  · exact h.chained.turn ht hx hrow hrows hfree hholds hkeep fun hc =>
      root_of_enqueue ((hroot _).symm.trans hc)
  · have hset : w.Grouped (l.set t s .ready) none :=
      h.grouped.set ht nofun nofun nofun nofun nofun
    refine hset.same (fun _ => by rw [hgroups]) (map_group_of_row hx hrow hgroup) hsize
      fun {s' ctx} hc => ?_
    rw [hroot]
    exact root_enqueue hc

/-- The coroutine that a task is resumed with. -/
theorem Chained.exists_top {s t : Nat} {x : Task} {top : CoroutineRef} (h : w.Chained l base)
    (ht : l t = some (s, .current top)) (hx : w.tasks.get? t = some x) :
    w.Holds x (.current top) ∧ ∃ rest y, x.chain = top :: rest ∧ w.handles.get? top.id = some y ∧
      y.status = .running ∧ y.owner = some x.id ∧ x.inbox.isStart = true ∧
      ∀ c ∈ rest, top.id ≠ c.id := by
  obtain ⟨x', hx', hh⟩ := h.holds ht
  rw [hx] at hx'
  cases hx'
  obtain ⟨c, rest, hc⟩ := hh.exists_head nofun
  obtain ⟨rfl, ⟨y, hy, hs⟩, hi⟩ := hh.head c (by simp [hc])
  obtain ⟨z, hz, ho⟩ := hh.owned top (by simp [hc])
  rw [hy] at hz
  cases hz
  have hn := hh.nodup
  rw [hc, List.map_cons, List.nodup_cons] at hn
  exact ⟨hh, rest, y, hc, hy, hs, ho, hi, fun c hc e => hn.1 (e ▸ List.mem_map_of_mem hc)⟩

/-- A target that is refused goes back to the task as an exception. -/
theorem Sound.refuse {s t : Nat} {x : Task} {top : CoroutineRef} {rest : List CoroutineRef}
    {frame : Frame} {target : Target} (h : w.Sound l base none) (x' : Task) (ht : l t = some (s, .current top))
    (hx : w.tasks.get? t = some x) (hc : x.chain = top :: rest)
    (hrow : ∀ u, w'.tasks.get? u = if u = t then some x' else w.tasks.get? u)
    (hid : x'.id = x.id) (hgroup : x'.group = x.group) (hchain : x'.chain = x.chain)
    (hout : x'.outcome = x.outcome) (hinbox : x'.inbox.isStart = false)
    (hsize : w'.tasks.size = w.tasks.size) (hgroups : w'.groups = w.groups)
    (hhandles : w'.handles = (w.modifyHandle top (·.left frame (.await target))).handles)
    (hctx : ∀ s', w'.context? s' = if s = s' then
      (w.context? s').map fun ctx => { ctx with ready := ctx.ready ++ [t] } else w.context? s') :
    w'.Sound (l.set t s .ready) base none := by
  obtain ⟨hh, rest', y, hc', hy, -, ho, -, hne⟩ := h.chained.exists_top ht hx
  rw [hc] at hc'
  cases hc'
  have hget := get?_modifyHandle_of_get? hy (·.left frame (.await target))
  rw [← hhandles] at hget
  refine h.requeue ht hx hgroup hrow hsize hgroups (fun i hi _ => ?_) (fun c hd => ?_) ?_
    (fun hd => .inl (hchain ▸ hd)) hctx
  · exact (hget i).trans (if_neg (hi top (by simp [hc])))
  · exact .inl (hchain ▸ hd)
  · exact hh.move_head nofun nofun hid hchain hout hc hy hget rfl
      ⟨_, (hget _).trans (if_pos rfl), .inr ⟨rfl, hinbox⟩⟩

/-- A coroutine that is claimed comes to the head of the chain and is started next. -/
theorem Sound.chain {s t : Nat} {x : Task} {top c : CoroutineRef} {rest : List CoroutineRef}
    {frame : Frame} (h : w.Sound l base none) (x' : Task) (ht : l t = some (s, .current top))
    (hx : w.tasks.get? t = some x) (hc : x.chain = top :: rest) (hfree : w.Free c.id)
    (hrow : ∀ u, w'.tasks.get? u = if u = t then some x' else w.tasks.get? u)
    (hid : x'.id = x.id) (hgroup : x'.group = x.group) (hchain : x'.chain = c :: x.chain)
    (hout : x'.outcome = x.outcome) (hinbox : x'.inbox = x.inbox)
    (hsize : w'.tasks.size = w.tasks.size) (hgroups : w'.groups = w.groups)
    (hhandles : w'.handles = ((w.modifyHandle top (·.left frame (.await (.coroutine c)))).modifyHandle
      c (·.ownedBy x.id)).handles)
    (hctx : ∀ s', w'.context? s' = if s = s' then
      (w.context? s').map fun ctx => { ctx with ready := ctx.ready ++ [t] } else w.context? s') :
    w'.Sound (l.set t s .ready) base none := by
  obtain ⟨hh, rest', y, hc', hy, hs, ho, hi, hne⟩ := h.chained.exists_top ht hx
  rw [hc] at hc'
  cases hc'
  have hlive : l t ≠ none := by simp [ht]
  obtain ⟨z, hz, hzs, hzo⟩ := hfree
  have hnew : ∀ d ∈ x.chain, d.id ≠ c.id := fun d hd => h.chained.ne_of_free hlive hx hd hz hzo
  have htop := hnew top (by simp [hc])
  have hget : ∀ i, w'.handles.get? i = if c.id = i then some (z.ownedBy x.id) else
      if top.id = i then some (y.left frame (.await (.coroutine c))) else w.handles.get? i := by
    intro i
    rw [hhandles, get?_modifyHandle_of_get? (y := z), get?_modifyHandle_of_get? hy]
    rw [get?_modifyHandle_of_get? hy, if_neg htop, hz]
  have hold : ∀ d ∈ x.chain, w'.handles.get? d.id =
      if top.id = d.id then some (y.left frame (.await (.coroutine c)))
      else w.handles.get? d.id := fun d hd => (hget _).trans (if_neg (hnew d hd).symm)
  refine h.requeue ht hx hgroup hrow hsize hgroups (fun i hi hf => ?_) (fun d hd => ?_) ?_
    (fun hd => .inl (hchain ▸ List.mem_cons_of_mem c hd)) hctx
  · have hci : c.id ≠ i := fun e => hf ⟨z, e ▸ hz, hzs, hzo⟩
    rw [hget, if_neg hci, if_neg (hi top (by simp [hc]))]
  · rw [hchain] at hd
    rcases List.mem_cons.mp hd with rfl | hd
    · exact .inr ⟨z, hz, hzs, hzo⟩
    · exact .inl hd
  · refine ⟨?outcome, ?empty, ?owned, ?nodup, ?linked, ?head⟩
    case outcome =>
      rw [hout, hh.outcome]
      exact iff_of_false nofun nofun
    case empty =>
      rw [hchain]
      exact iff_of_false nofun nofun
    case owned =>
      intro d hd
      rw [hchain] at hd
      rw [hid]
      rcases List.mem_cons.mp hd with rfl | hd
      · exact ⟨_, (hget _).trans (if_pos rfl), rfl⟩
      · obtain ⟨v, hv, hvo⟩ := hh.owned d hd
        by_cases e : top.id = d.id
        · exact ⟨_, (hold d hd).trans (if_pos e), ho⟩
        · exact ⟨v, (hold d hd).trans ((if_neg e).trans hv), hvo⟩
    case nodup =>
      rw [hchain, List.map_cons, List.nodup_cons]
      refine ⟨fun hd => ?_, hh.nodup⟩
      obtain ⟨d, hd, e⟩ := List.mem_map.mp hd
      exact hnew d hd e
    case linked =>
      -- the coroutine that was resumed waits for the new one, the others wait as before
      rw [hchain, hc]
      refine List.isChain_cons_cons.mpr
        ⟨⟨y.left frame (.await (.coroutine c)), ?_, rfl, rfl⟩, ?_⟩
      · exact (hold top (by simp [hc])).trans (if_pos rfl)
      · have hl := hh.linked
        rw [hc] at hl
        refine hl.imp_of_mem_tail_imp fun _ d _ hd hw => hw.of_get? ?_
        rw [hold d (by rw [hc]; exact List.mem_cons_of_mem _ hd)]
        exact if_neg (hne d hd)
    case head =>
      intro d hd
      rw [hchain] at hd
      cases hd
      exact ⟨_, (hget _).trans (if_pos rfl), .inl ⟨hzs, hinbox ▸ hi⟩⟩

end World

end Coroutines
