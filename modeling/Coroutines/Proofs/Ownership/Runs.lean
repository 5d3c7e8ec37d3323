import Coroutines.Proofs.Executions
import Coroutines.Proofs.Ownership.Endings

/-!
# Runs in a sound world

A world stays sound while orderly bodies run: new coroutines and groups leave it sound, a run that
starts adds its root to the standing, a turn moves the tasks of its own run only, and a run that
is over takes its tasks out of the standing again.  So an orderly action that starts in a sound
world ends in one that is sound for the same standing, however deep the runs inside it nest.
-/

namespace Coroutines

namespace World

variable {β σ : Type} {w w' : World β σ} {l l' : Standing} {base base' : Nat → Start}

/-! ### Requests -/

theorem Sound.initial (limits : List (Option Number)) (shared : σ) (base : Nat → Start) :
    (World.initial limits shared : World β σ).Sound (fun _ => none) base none := by
  have hc : ∀ {s ctx}, (World.initial limits shared : World β σ).context? s ≠ some ctx := by
    intro s ctx h
    obtain ⟨x, hx, hc⟩ := Option.bind_eq_some_iff.mp h
    obtain ⟨limit, -, rfl⟩ : ∃ limit, limits[s]? = some limit ∧ ⟨1, none, limit⟩ = x := by
      simpa [World.initial, Table.get?] using hx
    cases hc
  have hg : ∀ {g x}, (World.initial limits shared : World β σ).groups.get? g ≠ some x := by
    simp [World.initial, Table.get?]
  have hl : ∀ {s : Nat} {p : Place}, (none : Option (Nat × Place)) ≠ some (s, p) := by simp
  exact ⟨⟨fun h => absurd h hc, fun h => absurd h hc, fun h => absurd h hc,
      fun h => absurd h hl, fun h => absurd h hl⟩,
    ⟨fun h => absurd h hl, fun h => absurd rfl h, fun _ _ h => absurd h hc⟩,
    ⟨fun h => absurd h hg, fun h => absurd h hg, fun h => absurd h hg, fun h => absurd h hg,
      fun h => absurd h hg, fun h => absurd h hl, fun h => absurd h hl, fun h => absurd h hl,
      fun h => absurd h hg⟩⟩

/-- New coroutines, groups and tasks leave a world sound. -/
theorem Sound.grow (h : w.Sound l base none)
    (hhandles : ∀ {i x}, w.handles.get? i = some x → w'.handles.get? i = some x)
    (hgroups : ∀ {g x}, w.groups.get? g = some x → w'.groups.get? g = some x)
    (hnew : ∀ {g x}, w'.groups.get? g = some x →
      w.groups.get? g = some x ∨ x.awaitedBy = none ∧ x.tasks = [])
    (htasks : ∀ {t x}, w.tasks.get? t = some x → w'.tasks.get? t = some x)
    (hsize : w.tasks.size ≤ w'.tasks.size) (hctx : ∀ s, w'.context? s = w.context? s) :
    w'.Sound l base none where
  queued := h.queued.mono hctx
  chained := h.chained.mono htasks hhandles fun hc => by
    rw [hctx] at hc
    exact ⟨hc, h.queued.root hc⟩
  grouped := h.grouped.mono h.exists_row hgroups hnew (fun hy => ⟨_, htasks hy, rfl⟩) hsize
    fun hc => ⟨_, (hctx _).trans hc, rfl⟩

theorem Sound.spawn (h : w.Sound l base none) (name : String) (body : β)
    (locals : Bindings Value) : (w.spawn name body locals).2.Sound l base none :=
  h.grow Table.get?_push_of_some id .inl id le_rfl fun _ => rfl

theorem Sound.newGroup (h : w.Sound l base none) (members : List CoroutineRef)
    (returnExceptions : Bool) : (w.newGroup members returnExceptions).2.Sound l base none := by
  refine h.grow id Table.get?_push_of_some (fun {g x} hx => ?_) id le_rfl fun _ => rfl
  have hx := (Table.get?_push ..).symm.trans hx
  split at hx
  · cases hx
    exact .inr ⟨rfl, rfl⟩
  · exact .inl hx

/-! ### The start of a run -/

/-- A new root, in a run of its own. -/
theorem Grouped.root {s : Nat} {x : Task} (h : w.Grouped l none)
    (hlive : ∀ {t}, l t ≠ none → t < w.tasks.size) (hidle : ∀ t p, l t ≠ some (s, p))
    (hx : x.group = none) (hgroups : w'.groups = w.groups)
    (hrow : ∀ u, w'.tasks.get? u = if u = w.tasks.size then some x else w.tasks.get? u)
    (hsize : w.tasks.size ≤ w'.tasks.size) (hroot : ∃ ctx, w'.context? s = some ctx ∧
      ctx.root = w.tasks.size) (hctx : ∀ s', s' ≠ s → w'.context? s' = w.context? s') :
    w'.Grouped (l.set w.tasks.size s .ready) none := by
  have hset : ∀ {u}, u < w.tasks.size → l.set w.tasks.size s .ready u = l u :=
    fun hu => Standing.set_of_ne _ _ _ hu.ne
  have hlt : ∀ {u s' p}, l u = some (s', p) → u < w.tasks.size := fun hu => hlive (by simp [hu])
  have hold : ∀ {u}, u < w.tasks.size → w'.tasks.get? u = w.tasks.get? u := fun hu =>
    (hrow _).trans (if_neg hu.ne)
  refine ⟨?idle, ?awaiter, ?member, ?complete, ?together, ?parent, ?rootless, ?waits, ?settled⟩
  case idle =>
    intro g y hy
    exact h.idle (hgroups ▸ hy)
  case awaiter =>
    intro g y t hy ha
    exact (h.awaiter (hgroups ▸ hy) ha).trans_le hsize
  case member =>
    intro g y t hy ht
    rw [hgroups] at hy
    rw [hold (h.lt_size_of_mem hy ht)]
    exact h.member hy ht
  case complete =>
    intro g y t hy
    exact h.complete (hgroups ▸ hy)
  case together =>
    intro g y t s' p u hy ha ht hu
    rw [hgroups] at hy
    rw [hset (h.awaiter hy ha)] at ht
    rw [hset (h.lt_size_of_mem hy hu)]
    exact h.together hy ha ht hu
  case parent =>
    intro t s' p y ref ht hy hg
    by_cases e : t = w.tasks.size
    · rw [hrow, if_pos e] at hy
      cases hy
      rw [hx] at hg
      cases hg
    · rw [Standing.set_of_ne _ _ _ e] at ht
      rw [hrow, if_neg e] at hy
      obtain ⟨z, u, q, hz, hm, ha, hu, hq⟩ := h.parent ht hy hg
      exact ⟨z, u, q, hgroups ▸ hz, hm, ha, hu, (hset (hlt hq)).trans hq⟩
  case rootless =>
    intro t s' p y ht hy hg
    by_cases e : t = w.tasks.size
    · subst e
      rw [Standing.set_self] at ht
      cases ht
      exact hroot
    · rw [Standing.set_of_ne _ _ _ e] at ht
      rw [hrow, if_neg e] at hy
      have hs : s' ≠ s := fun es => hidle t p (es ▸ ht)
      simpa only [hctx s' hs] using h.rootless ht hy hg
  case waits =>
    intro t s' g ht
    rw [Standing.set_apply] at ht
    split at ht
    · cases ht
    · obtain ⟨y, hy, ha, hw⟩ := h.waits ht
      refine ⟨y, hgroups ▸ hy, ha, fun ho => ?_⟩
      obtain ⟨u, hu, hn⟩ := hw ho
      exact ⟨u, hu, by rwa [hset (h.lt_size_of_mem hy hu)]⟩
  case settled =>
    intro g y t s' p hy ha ht hp u hu
    rw [hgroups] at hy
    rw [hset (h.awaiter hy ha)] at ht
    rw [hset (h.lt_size_of_mem hy hu)]
    exact h.settled hy ha ht hp u hu

/-- A root with a coroutine that was free is in the queue of a run that was not in progress. -/
theorem Sound.addRoot {s number : Nat} {c : CoroutineRef} {y : Handle β} (h : w.Sound l base none)
    (hidle : ∀ t p, l t ≠ some (s, p)) (hy : w.handles.get? c.id = some y)
    (hs : y.status = .created) (ho : y.owner = none)
    (hrow : ∀ u, w'.tasks.get? u = if u = w.tasks.size then
      some ⟨number, 0, none, .pending, [c], .start, none⟩ else w.tasks.get? u)
    (hget : ∀ i, w'.handles.get? i =
      if c.id = i then some (y.ownedBy number) else w.handles.get? i)
    (hgroups : w'.groups = w.groups) (hsize : w.tasks.size ≤ w'.tasks.size)
    (hctx : ∀ s', w'.context? s' = if s = s' then some ⟨w.tasks.size, [w.tasks.size], 0⟩
      else w.context? s') :
    w'.Sound (l.set w.tasks.size s .ready) (Function.update base s ⟨w.tasks.size, c⟩) none := by
  have hself := (hrow _).trans (if_pos rfl)
  have hown : w'.context? s = some ⟨w.tasks.size, [w.tasks.size], 0⟩ := (hctx s).trans (if_pos rfl)
  have hctx : ∀ s', s' ≠ s → w'.context? s' = w.context? s' := fun s' e =>
    (hctx s').trans (if_neg (Ne.symm e))
  refine ⟨?queued, ?chained, ?grouped⟩
  case queued => exact h.queued.start hidle h.size_eq_none hown rfl rfl hctx
  case chained =>
    refine h.chained.claim hy hs ho rfl rfl rfl hrow hget fun s' ctx hc => ?_
    by_cases e : s' = s
    · subst e
      rw [hown] at hc
      cases hc
      rw [Function.update_self]
      refine ⟨rfl, fun x hx => .inl ?_⟩
      rw [hself] at hx
      cases hx
      exact List.mem_singleton_self c
    · rw [hctx s' e] at hc
      rw [Function.update_of_ne e]
      obtain ⟨hroot, hb⟩ := h.chained.base hc
      refine ⟨hroot, fun x hx => (hb x ?_).imp_right fun hf => hf.of_claim hy hs hget⟩
      rwa [hrow, if_neg (h.lt_size (h.root_ne_none hc)).ne] at hx
  case grouped =>
    exact h.grouped.root h.lt_size hidle rfl hgroups hrow hsize ⟨_, hown, rfl⟩ hctx

/-- A run that is refused leaves its scheduler alone; one that starts has its root in the queue. -/
theorem Sound.start (h : w.Sound l base none) (s : Nat) (c : CoroutineRef) :
    (∃ f w', w.start s c = (.error (.raise f), w') ∧ w'.Sound l base none) ∨
    ∃ w', w.start s c = (.ok w.tasks.size, w') ∧ (∀ t p, l t ≠ some (s, p)) ∧
      w'.Sound (l.set w.tasks.size s .ready) (Function.update base s ⟨w.tasks.size, c⟩) none := by
  cases hactive : w.isActive s with
  | true => exact .inl ⟨.nestedRun, w, by simp [World.start, hactive], h⟩
  | false =>
      obtain ⟨⟨sch, hsch⟩, hidle⟩ := idle_of_isActive hactive
      obtain ⟨number, hrow⟩ := w.get?_tasks_newTask s c 0 none
      have hsize : (w.newTask s c 0 none).2.tasks.size = w.tasks.size + 1 := Table.size_push ..
      have hself := (hrow _).trans (if_pos rfl)
      have hctx := fun s' => w.context?_newTask s c 0 none s'
      have hnumber := taskId_of_get? hself
      rcases hcl : (w.newTask s c 0 none).2.claim c number with ⟨- | f, w₁⟩
      · obtain ⟨y, hy, hs, ho, rfl⟩ := claim_eq_none hcl
        rw [handles_newTask] at hy
        have hnone : ∀ t p, l t ≠ some (s, p) := fun t p e => by
          obtain ⟨ctx, hc⟩ := h.queued.active e
          rw [hidle] at hc
          cases hc
        let w₁ := (w.newTask s c 0 none).2.modifyHandle c (·.ownedBy number)
        have hsch' : ∃ z, w₁.schedulers.get? s = some z :=
          ⟨_, (Table.get?_modify_self ..).trans (congrArg _ hsch)⟩
        refine .inr ⟨(w₁.activate s w.tasks.size).emit s (.runStart c.name), ?_, hnone, ?_⟩
        · simp only [World.start, hactive, newTask_fst, hnumber, hcl]
          rfl
        · refine h.addRoot hnone hy hs ho hrow (fun i => ?_) rfl (by simp [w₁, hsize, activate])
            fun s' => ?_
          · exact get?_modifyHandle_of_get? (w := (w.newTask s c 0 none).2) hy _ i
          · obtain ⟨z, hz⟩ := hsch'
            rw [context?_emit, activate, context?_modifyScheduler]
            split
            · next e => rw [← e, hz, Option.bind_some]
            · rw [context?_modifyHandle, hctx]
      · obtain rfl := claim_eq_some hcl
        refine .inl ⟨f, (w.newTask s c 0 none).2, ?_, ?_⟩
        · simp only [World.start, hactive, newTask_fst, hnumber, hcl]
          rfl
        · refine h.grow id id .inl (fun {t x} hx => ?_) (by simp [hsize]) hctx
          rw [hrow, if_neg (Table.ne_size_of_get? hx), hx]

/-! ### The end of a run -/

/-- The coroutine of a run is in no chain of another run. -/
theorem Sound.ne_of_base {s s' u : Nat} {p : Place} {x : Task} {d : CoroutineRef}
    (h : w.Sound l base none) (hs : ∃ ctx, w.context? s = some ctx) (e : s' ≠ s)
    (hu : l u = some (s', p)) (hx : w.tasks.get? u = some x) (hd : d ∈ x.chain) :
    (base s).coroutine.id ≠ d.id := by
  intro hid
  obtain ⟨ctx₀, hc₀⟩ := hs
  have hlive : l u ≠ none := by simp [hu]
  obtain ⟨q, hq⟩ := h.queued.root hc₀
  obtain ⟨x₀, hx₀, -⟩ := h.chained.holds hq
  rcases (h.chained.base hc₀).2 x₀ hx₀ with hb | ⟨z, hz, hf⟩
  · obtain rfl := h.chained.apart (h.root_ne_none hc₀) hlive hx₀ hx hb hd hid
    rw [hu] at hq
    cases hq
    exact e rfl
  · obtain ⟨_, _, -, hh⟩ := h.chained.holds_row hlive hx
    exact hh.not_finished hd ⟨z, hid ▸ hz, hf⟩

/-- The tasks of a run that is over stand nowhere any more; its coroutine belongs to no task. -/
theorem Sound.over {s : Nat} (h : w.Sound l base none) (w' : World β σ) (base' : Nat → Start)
    (hs : ∃ ctx, w.context? s = some ctx)
    (hhandles : w'.handles = w.handles) (hgroups : w'.groups = w.groups)
    (htasks : w'.tasks = w.tasks) (hctx : ∀ s', s' ≠ s → w'.context? s' = w.context? s')
    (hbase : ∀ s', s' ≠ s → base' s' = base s') :
    ((w'.release (base s).coroutine).deactivate s).Sound (l.without s) base' none := by
  obtain ⟨ctx₀, hc₀⟩ := hs
  have hgone : ∀ {s' ctx}, ((w'.release (base s).coroutine).deactivate s).context? s' = some ctx →
      s' ≠ s ∧ w.context? s' = some ctx := by
    intro s' ctx hc
    rw [context?_deactivate] at hc
    split at hc
    · cases hc
    · next e => exact ⟨Ne.symm e, (hctx s' (Ne.symm e)).symm.trans hc⟩
  have hstays : ∀ {s' ctx}, s' ≠ s → w.context? s' = some ctx →
      ((w'.release (base s).coroutine).deactivate s).context? s' = some ctx := by
    intro s' ctx e hc
    rw [context?_deactivate, if_neg (Ne.symm e)]
    exact (hctx s' e).trans hc
  have hget : ∀ i, ((w'.release (base s).coroutine).deactivate s).handles.get? i =
      if (base s).coroutine.id = i then (w.handles.get? i).map Handle.released
      else w.handles.get? i := by
    intro i
    refine (get?_handles_modifyHandle ..).trans ?_
    rw [hhandles]
  have hfin : ∀ {d}, w.Finished d →
      ((w'.release (base s).coroutine).deactivate s).Finished d := by
    rintro d ⟨z, hz, hf⟩
    by_cases e : (base s).coroutine.id = d.id
    · exact ⟨z.released, (hget _).trans (by rw [if_pos e, hz, Option.map_some]), hf⟩
    · exact ⟨z, (hget _).trans ((if_neg e).trans hz), hf⟩
  have hlive : ∀ {u}, l.without s u ≠ none → l u ≠ none := fun hu hn => hu (by
    simp [Standing.without, hn])
  have hrow : ∀ u, ((w'.release (base s).coroutine).deactivate s).tasks.get? u = w.tasks.get? u :=
    fun u => congrArg (fun t => Table.get? t u) htasks
  refine ⟨h.queued.without hgone hstays, ⟨?holds, ?apart, ?base⟩, h.grouped.without
    (fun g => congrArg (fun t => Table.get? t g) hgroups) hrow (congrArg Table.size htasks) hstays⟩
  case holds =>
    intro u s' p hu
    obtain ⟨hu, e⟩ := Standing.without_eq_some_iff.mp hu
    obtain ⟨x, hx, hh⟩ := h.chained.holds hu
    exact ⟨x, (hrow u).trans hx, hh.of_get? fun d hd =>
      (hget _).trans (if_neg (h.ne_of_base ⟨ctx₀, hc₀⟩ e hu hx hd))⟩
  case apart =>
    intro u v x y c d hu hv hx hy
    exact h.chained.apart (hlive hu) (hlive hv) ((hrow u).symm.trans hx) ((hrow v).symm.trans hy)
  case base =>
    intro s' ctx hc
    obtain ⟨e, hc⟩ := hgone hc
    obtain ⟨hroot, hb⟩ := h.chained.base hc
    rw [hbase s' e]
    exact ⟨hroot, fun x hx => (hb x ((hrow _).symm.trans hx)).imp_right hfin⟩

end World

end Coroutines
