import Coroutines.Proofs.Ownership.Standing

/-!
# Soundness under small changes

How each part of soundness survives a change of the tables: one that leaves every row that a task
of a run refers to (`mono`, `same`), one that concerns a single task (`set`, `change`, `turn`,
`claim`), the start of a group and of its members (`start`, `add`), and the end of a run, whose tasks
stand nowhere any more (`without`).
-/

namespace Coroutines

namespace World

variable {β σ : Type} {w w' : World β σ} {l l' : Standing} {base base' : Nat → Start}
variable {opened : Option Nat}

/-! ### Queues -/

theorem Queued.mono (h : w.Queued l) (hctx : ∀ s, w'.context? s = w.context? s) :
    w'.Queued l where
  root hc := h.root (hctx _ ▸ hc)
  nodup hc := h.nodup (hctx _ ▸ hc)
  ready hc := h.ready (hctx _ ▸ hc)
  active hl := by simpa only [hctx] using h.active hl
  alone := h.alone

/-- A task takes a place, and the queue of its run follows. -/
theorem Queued.set {t s : Nat} {p : Place} (h : w.Queued l)
    (hs : ∃ ctx, w.context? s = some ctx) (hl : ∀ s' q, l t = some (s', q) → s' = s)
    (hother : ∀ s', s' ≠ s → w'.context? s' = w.context? s')
    (hctx : ∀ ctx, w.context? s = some ctx → ∃ ctx', w'.context? s = some ctx' ∧
      ctx'.root = ctx.root ∧ ctx'.ready.Nodup ∧
      ∀ u, u ∈ ctx'.ready ↔ if u = t then p = .ready else u ∈ ctx.ready)
    (halone : ∀ c, p = .current c → l.Calm s) : w'.Queued (l.set t s p) := by
  obtain ⟨ctx, hc⟩ := hs
  obtain ⟨ctx', hc', hroot, hnodup, hready⟩ := hctx ctx hc
  -- another run has its own tasks, so only the run that the task moves in has to be looked at
  refine ⟨?root, ?nodup, ?ready, ?active, ?alone⟩
  case root =>
    intro s' x hx
    by_cases e : s' = s
    · subst e
      obtain rfl : ctx' = x := Option.some.inj (hc'.symm.trans hx)
      by_cases et : ctx'.root = t
      · exact ⟨p, by rw [et, Standing.set_self]⟩
      · obtain ⟨q, hq⟩ := h.root hc
        exact ⟨q, by rw [Standing.set_of_ne _ _ _ et, hroot, hq]⟩
    · rw [hother s' e] at hx
      obtain ⟨q, hq⟩ := h.root hx
      have et : x.root ≠ t := fun et => e (hl s' q (et ▸ hq))
      exact ⟨q, by rw [Standing.set_of_ne _ _ _ et, hq]⟩
  case nodup =>
    intro s' x hx
    by_cases e : s' = s
    · subst e
      obtain rfl : ctx' = x := Option.some.inj (hc'.symm.trans hx)
      exact hnodup
    · exact h.nodup (hother s' e ▸ hx)
  case ready =>
    intro s' x hx u
    by_cases e : s' = s
    · subst e
      obtain rfl : ctx' = x := Option.some.inj (hc'.symm.trans hx)
      rw [hready u, Standing.set_apply]
      by_cases et : u = t
      · simp [et]
      · simp [et, h.ready hc u]
    · rw [hother s' e] at hx
      rw [h.ready hx u, Standing.set_apply]
      by_cases et : u = t
      · subst et
        have hn : l u ≠ some (s', .ready) := fun hq => e (hl s' _ hq)
        simp [hn, Ne.symm e]
      · simp [et]
  case active =>
    intro u s' q hu
    rw [Standing.set_apply] at hu
    by_cases et : u = t
    · simp only [et, if_true, Option.some.injEq, Prod.mk.injEq] at hu
      exact ⟨ctx', hu.1 ▸ hc'⟩
    · rw [if_neg et] at hu
      obtain ⟨x, hx⟩ := h.active hu
      by_cases e : s' = s
      · exact ⟨ctx', e ▸ hc'⟩
      · exact ⟨x, (hother s' e).trans hx⟩
  case alone =>
    intro s' u v c d hu hv
    rw [Standing.set_apply] at hu hv
    by_cases eu : u = t <;> by_cases ev : v = t
    · rw [eu, ev]
    · simp only [eu, if_true, Option.some.injEq, Prod.mk.injEq] at hu
      rw [if_neg ev] at hv
      exact absurd hv (hu.1 ▸ halone _ hu.2 v _)
    · simp only [ev, if_true, Option.some.injEq, Prod.mk.injEq] at hv
      rw [if_neg eu] at hu
      exact absurd hu (hv.1 ▸ halone _ hv.2 u _)
    · rw [if_neg eu] at hu
      rw [if_neg ev] at hv
      exact h.alone hu hv

/-- A task that is not queued takes a place outside the queue. -/
theorem Queued.set_away {t s : Nat} {p q : Place} (h : w.Queued l) (ht : l t = some (s, q))
    (hq : q ≠ .ready) (hp : p ≠ .ready) (hp' : ∀ c, p ≠ .current c)
    (hctx : ∀ s', w'.context? s' = w.context? s') : w'.Queued (l.set t s p) := by
  refine h.set (h.active ht) ?_ (fun s' _ => hctx s') ?_ fun c e => absurd e (hp' c)
  · intro s' q' hq'
    rw [ht] at hq'
    cases hq'
    rfl
  · intro ctx hc
    refine ⟨ctx, (hctx s).trans hc, rfl, h.nodup hc, fun u => ?_⟩
    by_cases e : u = t
    · subst e
      simp [hp, h.ready hc, ht, hq]
    · simp [e]

/-- A task that is not queued goes to the end of the queue. -/
theorem Queued.set_ready {t s : Nat} (h : w.Queued l) (hs : ∃ ctx, w.context? s = some ctx)
    (hl : ∀ s' q, l t = some (s', q) → s' = s ∧ q ≠ .ready)
    (hctx : ∀ s', w'.context? s' = if s = s' then
      (w.context? s').map fun ctx => { ctx with ready := ctx.ready ++ [t] } else w.context? s') :
    w'.Queued (l.set t s .ready) := by
  have hn : ∀ {ctx}, w.context? s = some ctx → t ∉ ctx.ready := fun hc ht =>
    (hl s _ ((h.ready hc t).mp ht)).2 rfl
  refine h.set hs (fun s' q hq => (hl s' q hq).1) (fun s' e => ?_) ?_ nofun
  · rw [hctx, if_neg (Ne.symm e)]
  · intro ctx hc
    refine ⟨{ ctx with ready := ctx.ready ++ [t] }, by rw [hctx, if_pos rfl, hc]; rfl, rfl, ?_, ?_⟩
    · refine List.nodup_append.mpr ⟨h.nodup hc, by simp, fun u hu v hv e => ?_⟩
      rw [e, List.mem_singleton.mp hv] at hu
      exact hn hc hu
    · intro u
      by_cases e : u = t
      · simp [e]
      · simp [e]

/-- The task at the head of the queue leaves it to be resumed. -/
theorem Queued.set_current {t s : Nat} {c : CoroutineRef} {ctx ctx' : RunContext} (h : w.Queued l)
    (hcalm : l.Calm s) (hc : w.context? s = some ctx) (hq : ctx.ready = t :: ctx'.ready)
    (hc' : w'.context? s = some ctx') (hroot : ctx'.root = ctx.root)
    (hother : ∀ s', s' ≠ s → w'.context? s' = w.context? s') :
    w'.Queued (l.set t s (.current c)) := by
  have ht : l t = some (s, .ready) := (h.ready hc t).mp (by simp [hq])
  have hn := h.nodup hc
  rw [hq, List.nodup_cons] at hn
  refine h.set ⟨ctx, hc⟩ (fun s' q e => ?_) hother (fun x hx => ?_) fun _ _ => hcalm
  · rw [ht] at e
    cases e
    rfl
  · rw [hc] at hx
    cases hx
    refine ⟨ctx', hc', hroot, hn.2, fun u => ?_⟩
    by_cases e : u = t
    · simp [e, hn.1]
    · simp [e, hq]

/-- A scheduler without a run starts one, with a new task in the queue. -/
theorem Queued.start {t s : Nat} {ctx : RunContext} (h : w.Queued l)
    (hidle : ∀ u p, l u ≠ some (s, p)) (ht : l t = none) (hc : w'.context? s = some ctx)
    (hroot : ctx.root = t) (hready : ctx.ready = [t])
    (hother : ∀ s', s' ≠ s → w'.context? s' = w.context? s') : w'.Queued (l.set t s .ready) := by
  refine ⟨?root, ?nodup, ?ready, ?active, ?alone⟩
  case root =>
    intro s' x hx
    by_cases e : s' = s
    · subst e
      obtain rfl : ctx = x := Option.some.inj (hc.symm.trans hx)
      exact ⟨.ready, hroot ▸ Standing.set_self ..⟩
    · rw [hother s' e] at hx
      obtain ⟨p, hp⟩ := h.root hx
      exact ⟨p, by rw [Standing.set_of_ne _ _ _ fun er => by simp [er, ht] at hp, hp]⟩
  case nodup =>
    intro s' x hx
    by_cases e : s' = s
    · subst e
      obtain rfl : ctx = x := Option.some.inj (hc.symm.trans hx)
      simp [hready]
    · exact h.nodup (hother s' e ▸ hx)
  case ready =>
    intro s' x hx u
    by_cases e : s' = s
    · subst e
      obtain rfl : ctx = x := Option.some.inj (hc.symm.trans hx)
      rw [hready, Standing.set_apply]
      split
      · next eu => simp [eu]
      · next eu => simp [eu, hidle u]
    · rw [hother s' e] at hx
      rw [h.ready hx, Standing.set_apply]
      split
      · next eu => simp [eu, ht, Ne.symm e]
      · rfl
  case active =>
    intro u s' p hu
    rw [Standing.set_apply] at hu
    split at hu
    · cases hu
      exact ⟨_, hc⟩
    · have e : s' ≠ s := fun e => hidle u p (e ▸ hu)
      obtain ⟨x, hx⟩ := h.active hu
      exact ⟨x, (hother s' e).trans hx⟩
  case alone =>
    intro s' u v c d hu hv
    rw [Standing.set_apply] at hu hv
    split at hu
    · cases hu
    · split at hv
      · cases hv
      · exact h.alone hu hv

/-- The queue of a run goes when the run is over. -/
theorem Queued.without {s : Nat} (h : w.Queued l)
    (hgone : ∀ {s' ctx}, w'.context? s' = some ctx → s' ≠ s ∧ w.context? s' = some ctx)
    (hstays : ∀ {s' ctx}, s' ≠ s → w.context? s' = some ctx → w'.context? s' = some ctx) :
    w'.Queued (l.without s) := by
  refine ⟨?root, ?nodup, ?ready, ?active, ?alone⟩
  case root =>
    intro s' ctx hc
    obtain ⟨e, hc⟩ := hgone hc
    obtain ⟨p, hp⟩ := h.root hc
    exact ⟨p, Standing.without_eq_some_iff.mpr ⟨hp, e⟩⟩
  case nodup =>
    intro s' ctx hc
    exact h.nodup (hgone hc).2
  case ready =>
    intro s' ctx hc u
    obtain ⟨e, hc⟩ := hgone hc
    rw [h.ready hc, Standing.without_eq_some_iff]
    exact ⟨fun hu => ⟨hu, e⟩, And.left⟩
  case active =>
    intro u s' p hu
    obtain ⟨hu, e⟩ := Standing.without_eq_some_iff.mp hu
    obtain ⟨ctx, hc⟩ := h.active hu
    exact ⟨ctx, hstays e hc⟩
  case alone =>
    intro s' u v c d hu hv
    exact h.alone (Standing.without_eq_some_iff.mp hu).1 (Standing.without_eq_some_iff.mp hv).1

/-! ### Chains -/

/-- Chains stay when no row that exists changes. -/
theorem Chained.mono (h : w.Chained l base)
    (htasks : ∀ {t x}, w.tasks.get? t = some x → w'.tasks.get? t = some x)
    (hhandles : ∀ {i x}, w.handles.get? i = some x → w'.handles.get? i = some x)
    (hctx : ∀ {s ctx}, w'.context? s = some ctx →
      w.context? s = some ctx ∧ ∃ p, l ctx.root = some (s, p)) :
    w'.Chained l base := by
  have hrow : ∀ {t x}, l t ≠ none → w'.tasks.get? t = some x → w.tasks.get? t = some x := by
    intro t x ht hx
    cases hl : l t with
    | none => exact absurd hl ht
    | some sp =>
        obtain ⟨y, hy, -⟩ := h.holds hl
        rw [hy, ← htasks hy, hx]
  have hfin : ∀ {c}, w.Finished c → w'.Finished c := by
    rintro c ⟨x, hx, hs⟩
    exact ⟨x, hhandles hx, hs⟩
  refine ⟨?holds, ?apart, ?base⟩
  case holds =>
    intro t s p ht
    obtain ⟨x, hx, hh⟩ := h.holds ht
    refine ⟨x, htasks hx, hh.of_get? fun c hc => ?_⟩
    obtain ⟨y, hy, -⟩ := hh.owned c hc
    rw [hy, hhandles hy]
  case apart =>
    intro t u x y c d ht hu hx hy
    exact h.apart ht hu (hrow ht hx) (hrow hu hy)
  case base =>
    intro s ctx hc
    obtain ⟨hc, p, hp⟩ := hctx hc
    have hr : l ctx.root ≠ none := by simp [hp]
    exact ⟨(h.base hc).1, fun x hx => ((h.base hc).2 x (hrow hr hx)).imp_right hfin⟩

/-- The row of a task of a run is one that holds its chain. -/
theorem Chained.holds_row (h : w.Chained l base) {t : Nat} {x : Task} (ht : l t ≠ none)
    (hx : w.tasks.get? t = some x) : ∃ s p, l t = some (s, p) ∧ w.Holds x p := by
  cases hl : l t with
  | none => exact absurd hl ht
  | some sp =>
      obtain ⟨y, hy, hh⟩ := h.holds hl
      rw [hx] at hy
      cases hy
      exact ⟨sp.1, sp.2, rfl, hh⟩

/-- A coroutine that belongs to no task is in no chain. -/
theorem Chained.ne_of_free (h : w.Chained l base) {t : Nat} {x : Task} {c d : CoroutineRef}
    {y : Handle β} (ht : l t ≠ none) (hx : w.tasks.get? t = some x) (hc : c ∈ x.chain)
    (hd : w.handles.get? d.id = some y) (hy : y.owner = none) : c.id ≠ d.id := by
  intro e
  obtain ⟨s, p, -, hh⟩ := h.holds_row ht hx
  obtain ⟨z, hz, ho⟩ := hh.owned c hc
  rw [e, hd] at hz
  cases hz
  rw [hy] at ho
  cases ho

/-- One task changes, with coroutines that no other task holds. -/
theorem Chained.change {t : Nat} {x' : Task} (h : w.Chained l base)
    (hl : ∀ u, u ≠ t → l' u = l u)
    (htasks : ∀ u, u ≠ t → w'.tasks.get? u = w.tasks.get? u)
    (ht : w'.tasks.get? t = some x')
    (hhandles : ∀ {u x c}, u ≠ t → l u ≠ none → w.tasks.get? u = some x → c ∈ x.chain →
      w'.handles.get? c.id = w.handles.get? c.id)
    (hholds : ∀ {s p}, l' t = some (s, p) → w'.Holds x' p)
    (hapart : ∀ {u x c d}, u ≠ t → l u ≠ none → w.tasks.get? u = some x → c ∈ x.chain →
      d ∈ x'.chain → c.id ≠ d.id)
    (hbase : ∀ ⦃s ctx⦄, w'.context? s = some ctx → ctx.root = (base' s).root ∧
      ∀ x, w'.tasks.get? ctx.root = some x →
        (base' s).coroutine ∈ x.chain ∨ w'.Finished (base' s).coroutine) : w'.Chained l' base' := by
  refine ⟨?holds, ?apart, hbase⟩
  case holds =>
    intro u s p hu
    by_cases e : u = t
    · subst e
      exact ⟨x', ht, hholds hu⟩
    · rw [hl u e] at hu
      obtain ⟨x, hx, hh⟩ := h.holds hu
      have hn : l u ≠ none := by simp [hu]
      exact ⟨x, (htasks u e).trans hx, hh.of_get? fun c hc => hhandles e hn hx hc⟩
  case apart =>
    intro u v x y c d hu hv hx hy hc hd hcd
    by_cases eu : u = t <;> by_cases ev : v = t
    · rw [eu, ev]
    · rw [eu, ht] at hx
      cases hx
      rw [hl v ev] at hv
      exact absurd hcd.symm (hapart ev hv (htasks v ev ▸ hy) hd hc)
    · rw [ev, ht] at hy
      cases hy
      rw [hl u eu] at hu
      exact absurd hcd (hapart eu hu (htasks u eu ▸ hx) hc hd)
    · rw [hl u eu] at hu
      rw [hl v ev] at hv
      exact h.apart hu hv (htasks u eu ▸ hx) (htasks v ev ▸ hy) hc hd hcd

/-- The coroutines that runs were started with, when one task changes: the change keeps what has
finished, and the base of its run if the task is the root. -/
theorem Chained.base_of_change {t : Nat} {x x' : Task} (h : w.Chained l base)
    (hctx : ∀ {s ctx'}, w'.context? s = some ctx' →
      ∃ ctx, w.context? s = some ctx ∧ ctx.root = ctx'.root)
    (htasks : ∀ u, u ≠ t → w'.tasks.get? u = w.tasks.get? u)
    (hold : w.tasks.get? t = some x) (ht : w'.tasks.get? t = some x')
    (hfin : ∀ {c}, w.Finished c → w'.Finished c)
    (hkeep : ∀ {c}, c ∈ x.chain → c ∈ x'.chain ∨ w'.Finished c) :
    ∀ ⦃s ctx⦄, w'.context? s = some ctx → ctx.root = (base s).root ∧
      ∀ y, w'.tasks.get? ctx.root = some y →
        (base s).coroutine ∈ y.chain ∨ w'.Finished (base s).coroutine := by
  intro s ctx' hc
  obtain ⟨ctx, hc, hr⟩ := hctx hc
  obtain ⟨hroot, hb⟩ := h.base hc
  refine ⟨hr.symm.trans hroot, fun y hy => ?_⟩
  by_cases e : ctx'.root = t
  · rw [e, ht] at hy
    cases hy
    rcases hb x (hr.trans e ▸ hold) with hb | hb
    · exact hkeep hb
    · exact .inr (hfin hb)
  · rw [htasks _ e] at hy
    exact (hb y (hr ▸ hy)).imp_right hfin

/-- The coroutines that runs were started with, when the row of no root changes. -/
theorem Chained.base_of_roots (h : w.Chained l base)
    (hctx : ∀ {s ctx'}, w'.context? s = some ctx' → ∃ ctx, w.context? s = some ctx ∧
      ctx.root = ctx'.root ∧ w'.tasks.get? ctx.root = w.tasks.get? ctx.root)
    (hfin : ∀ {c}, w.Finished c → w'.Finished c) :
    ∀ ⦃s ctx⦄, w'.context? s = some ctx → ctx.root = (base s).root ∧
      ∀ y, w'.tasks.get? ctx.root = some y →
        (base s).coroutine ∈ y.chain ∨ w'.Finished (base s).coroutine := by
  intro s ctx' hc
  obtain ⟨ctx, hc, hr, he⟩ := hctx hc
  obtain ⟨hroot, hb⟩ := h.base hc
  refine ⟨hr.symm.trans hroot, fun y hy => ?_⟩
  rw [← hr, he] at hy
  exact (hb y hy).imp_right hfin

/-- A coroutine that has not started and belongs to no task. -/
def Free (w : World β σ) (i : Nat) : Prop :=
  ∃ y, w.handles.get? i = some y ∧ y.status = .created ∧ y.owner = none

/-- One task goes on: of the coroutines that exist, only its own and free ones change. -/
theorem Chained.turn {s t : Nat} {p p' : Place} {x x' : Task} (h : w.Chained l base)
    (ht : l t = some (s, p)) (hx : w.tasks.get? t = some x)
    (hrow : ∀ u, w'.tasks.get? u = if u = t then some x' else w.tasks.get? u)
    (hrows : ∀ i, (∀ c ∈ x.chain, c.id ≠ i) → ¬ w.Free i →
      w'.handles.get? i = w.handles.get? i)
    (hfree : ∀ c ∈ x'.chain, c ∈ x.chain ∨ w.Free c.id) (hholds : w'.Holds x' p')
    (hkeep : ∀ {c}, c ∈ x.chain → c ∈ x'.chain ∨ w'.Finished c)
    (hctx : ∀ {s' ctx'}, w'.context? s' = some ctx' →
      ∃ ctx, w.context? s' = some ctx ∧ ctx.root = ctx'.root) :
    w'.Chained (l.set t s p') base := by
  have hlive : l t ≠ none := by simp [ht]
  refine h.change (fun u hu => Standing.set_of_ne _ _ _ hu) (fun u hu => (hrow u).trans (if_neg hu))
    ((hrow t).trans (if_pos rfl)) ?_ ?_ ?_ ?_
  · intro u z c hu hl hz hc
    refine hrows _ (fun d hd e => hu (h.apart hl hlive hz hx hc hd e.symm)) ?_
    rintro ⟨y, hy, -, ho⟩
    exact h.ne_of_free hl hz hc hy ho rfl
  · intro s' q hq
    rw [Standing.set_self] at hq
    cases hq
    exact hholds
  · intro u z c d hu hl hz hc hd e
    rcases hfree d hd with hd | ⟨y, hy, -, ho⟩
    · exact hu (h.apart hl hlive hz hx hc hd e)
    · exact h.ne_of_free hl hz hc hy ho e
  · refine h.base_of_change hctx (fun u hu => (hrow u).trans (if_neg hu)) hx
      ((hrow t).trans (if_pos rfl)) ?_ hkeep
    rintro c ⟨z, hz, hf⟩
    obtain ⟨s', q, -, hh⟩ := h.holds_row hlive hx
    refine ⟨z, (hrows _ (fun d hd e => hh.not_finished hd ⟨z, e ▸ hz, hf⟩) ?_).trans hz, hf⟩
    rintro ⟨y, hy, hs, -⟩
    rw [hz] at hy
    cases hy
    simp [hs, Status.isFinished] at hf

/-- A claim changes no row of a coroutine that has finished. -/
theorem Finished.of_claim {c d : CoroutineRef} {y y' : Handle β} (h : w.Finished d)
    (hy : w.handles.get? c.id = some y) (hs : y.status = .created)
    (hget : ∀ i, w'.handles.get? i = if c.id = i then some y' else w.handles.get? i) :
    w'.Finished d := by
  obtain ⟨z, hz, hf⟩ := h
  have hne : c.id ≠ d.id := by
    intro e
    rw [← e, hy] at hz
    cases hz
    simp [hs, Status.isFinished] at hf
  exact ⟨z, (hget _).trans ((if_neg hne).trans hz), hf⟩

/-- A new task is queued with a coroutine that it claimed. -/
theorem Chained.claim {t s : Nat} {c : CoroutineRef} {y : Handle β} {x' : Task}
    (h : w.Chained l base) (hy : w.handles.get? c.id = some y) (hs : y.status = .created)
    (ho : y.owner = none) (hchain : x'.chain = [c]) (hout : x'.outcome = none)
    (hinbox : x'.inbox = .start)
    (hrow : ∀ u, w'.tasks.get? u = if u = t then some x' else w.tasks.get? u)
    (hget : ∀ i, w'.handles.get? i =
      if c.id = i then some (y.ownedBy x'.id) else w.handles.get? i)
    (hbase : ∀ ⦃s ctx⦄, w'.context? s = some ctx → ctx.root = (base' s).root ∧
      ∀ x, w'.tasks.get? ctx.root = some x →
        (base' s).coroutine ∈ x.chain ∨ w'.Finished (base' s).coroutine) :
    w'.Chained (l.set t s .ready) base' := by
  have hother : ∀ {u z d}, l u ≠ none → w.tasks.get? u = some z → d ∈ z.chain → d.id ≠ c.id :=
    fun hu hz hd => h.ne_of_free hu hz hd hy ho
  refine h.change (fun u hu => Standing.set_of_ne _ _ _ hu) (fun u hu => (hrow u).trans (if_neg hu))
    ((hrow t).trans (if_pos rfl)) (fun _ hu hz hd => ?_) (fun {s' p} hp => ?_)
    (fun _ hu hz hd he => ?_) hbase
  · exact (hget _).trans (if_neg (hother hu hz hd).symm)
  · rw [Standing.set_self] at hp
    cases hp
    exact .fresh hchain hout hinbox ((hget _).trans (if_pos rfl)) hs
  · rw [hchain] at he
    rw [List.mem_singleton.mp he]
    exact hother hu hz hd

/-! ### Groups -/

/-- Groups stay when no row that exists changes and every new group is idle. -/
theorem Grouped.mono (h : w.Grouped l opened)
    (hlive : ∀ {t}, l t ≠ none → ∃ y, w.tasks.get? t = some y)
    (hgroups : ∀ {g x}, w.groups.get? g = some x → w'.groups.get? g = some x)
    (hnew : ∀ {g x}, w'.groups.get? g = some x →
      w.groups.get? g = some x ∨ x.awaitedBy = none ∧ x.tasks = [])
    (htasks : ∀ {t y}, w.tasks.get? t = some y → ∃ y', w'.tasks.get? t = some y' ∧ y'.group = y.group)
    (hsize : w.tasks.size ≤ w'.tasks.size)
    (hctx : ∀ {s ctx}, w.context? s = some ctx →
      ∃ ctx', w'.context? s = some ctx' ∧ ctx'.root = ctx.root) :
    w'.Grouped l opened := by
  have hrow : ∀ {t y'}, l t ≠ none → w'.tasks.get? t = some y' →
      ∃ y, w.tasks.get? t = some y ∧ y'.group = y.group := by
    intro t y' ht hy'
    obtain ⟨y, hy⟩ := hlive ht
    obtain ⟨z, hz, hg⟩ := htasks hy
    rw [hz] at hy'
    cases hy'
    exact ⟨y, hy, hg⟩
  refine ⟨?idle, ?awaiter, ?member, ?complete, ?together, ?parent, ?rootless, ?waits, ?settled⟩
  case idle =>
    intro g x hx ha
    rcases hnew hx with hx | ⟨-, hx⟩
    · exact h.idle hx ha
    · exact hx
  case awaiter =>
    intro g x t hx ha
    rcases hnew hx with hx | ⟨hn, -⟩
    · exact (h.awaiter hx ha).trans_le hsize
    · rw [hn] at ha
      cases ha
  case member =>
    intro g x t hx ht
    rcases hnew hx with hx | ⟨-, hn⟩
    · obtain ⟨y, ref, hy, hg, hr⟩ := h.member hx ht
      obtain ⟨y', hy', e⟩ := htasks hy
      exact ⟨y', ref, hy', e.trans hg, hr⟩
    · rw [hn] at ht
      cases ht
  case complete =>
    intro g x t hx ha ho
    rcases hnew hx with hx | ⟨hn, -⟩
    · exact h.complete hx ha ho
    · rw [hn] at ha
      cases ha
  case together =>
    intro g x t s p u hx ha
    rcases hnew hx with hx | ⟨hn, -⟩
    · exact h.together hx ha
    · rw [hn] at ha
      cases ha
  case parent =>
    intro t s p y' ref ht hy' hg
    obtain ⟨y, hy, e⟩ := hrow (by simp [ht]) hy'
    obtain ⟨x, u, q, hx, hm, ha, hlt, hu⟩ := h.parent ht hy (e ▸ hg)
    exact ⟨x, u, q, hgroups hx, hm, ha, hlt, hu⟩
  case rootless =>
    intro t s p y' ht hy' hg
    obtain ⟨y, hy, e⟩ := hrow (by simp [ht]) hy'
    obtain ⟨ctx, hc, hr⟩ := h.rootless ht hy (e ▸ hg)
    obtain ⟨ctx', hc', hr'⟩ := hctx hc
    exact ⟨ctx', hc', hr'.trans hr⟩
  case waits =>
    intro t s g ht
    obtain ⟨x, hx, ha, hw⟩ := h.waits ht
    exact ⟨x, hgroups hx, ha, hw⟩
  case settled =>
    intro g x t s p hx ha
    rcases hnew hx with hx | ⟨hn, -⟩
    · exact h.settled hx ha
    · rw [hn] at ha
      cases ha

/-- A row that changes within its group leaves every task in its group. -/
theorem map_group_of_row {t : Nat} {x x' : Task} (hx : w.tasks.get? t = some x)
    (hrow : ∀ u, w'.tasks.get? u = if u = t then some x' else w.tasks.get? u)
    (hgroup : x'.group = x.group) (u : Nat) :
    (w'.tasks.get? u).map Task.group = (w.tasks.get? u).map Task.group := by
  rw [hrow]
  split
  · next e => rw [e, hx, Option.map_some, Option.map_some, hgroup]
  · rfl

/-- Groups stay when only what they do not depend on changes. -/
theorem Grouped.same (h : w.Grouped l opened)
    (hgroups : ∀ g, w'.groups.get? g = w.groups.get? g)
    (htasks : ∀ t, (w'.tasks.get? t).map Task.group = (w.tasks.get? t).map Task.group)
    (hsize : w'.tasks.size = w.tasks.size)
    (hctx : ∀ {s ctx}, w.context? s = some ctx →
      ∃ ctx', w'.context? s = some ctx' ∧ ctx'.root = ctx.root) :
    w'.Grouped l opened := by
  have hrow : ∀ {t y'}, w'.tasks.get? t = some y' →
      ∃ y, w.tasks.get? t = some y ∧ y.group = y'.group := by
    intro t y' hy'
    have e := htasks t
    rw [hy'] at e
    exact Option.map_eq_some_iff.mp e.symm
  refine ⟨?idle, ?awaiter, ?member, ?complete, ?together, ?parent, ?rootless, ?waits, ?settled⟩
  case idle =>
    intro g x hx
    exact h.idle (hgroups g ▸ hx)
  case awaiter =>
    intro g x t hx ha
    exact hsize ▸ h.awaiter (hgroups g ▸ hx) ha
  case member =>
    intro g x t hx ht
    obtain ⟨y, ref, hy, hg, hr⟩ := h.member (hgroups g ▸ hx) ht
    have e := htasks t
    rw [hy] at e
    obtain ⟨y', hy', e⟩ := Option.map_eq_some_iff.mp e
    exact ⟨y', ref, hy', e.trans hg, hr⟩
  case complete =>
    intro g x t hx
    exact h.complete (hgroups g ▸ hx)
  case together =>
    intro g x t s p u hx
    exact h.together (hgroups g ▸ hx)
  case parent =>
    intro t s p y' ref ht hy' hg
    obtain ⟨y, hy, e⟩ := hrow hy'
    obtain ⟨x, u, q, hx, hm⟩ := h.parent ht hy (e.trans hg)
    exact ⟨x, u, q, (hgroups _).trans hx, hm⟩
  case rootless =>
    intro t s p y' ht hy' hg
    obtain ⟨y, hy, e⟩ := hrow hy'
    obtain ⟨ctx, hc, hr⟩ := h.rootless ht hy (e.trans hg)
    obtain ⟨ctx', hc', hr'⟩ := hctx hc
    exact ⟨ctx', hc', hr'.trans hr⟩
  case waits =>
    intro t s g ht
    obtain ⟨x, hx, hw⟩ := h.waits ht
    exact ⟨x, (hgroups g).trans hx, hw⟩
  case settled =>
    intro g x t s p hx
    exact h.settled (hgroups g ▸ hx)

/-- A task moves to a place where it waits for no group.  If it ends, its group is open from then
on; if it leaves the group that it waited for, all members have ended. -/
theorem Grouped.set {t s : Nat} {p p' : Place} {opened' : Option Nat} (h : w.Grouped l opened)
    (ht : l t = some (s, p)) (hp : p ≠ .ended) (hp' : ∀ g, p' ≠ .blocked g)
    (hleave : ∀ {g x}, p = .blocked g → w.groups.get? g = some x →
      ∀ u ∈ x.tasks, l u = some (s, .ended))
    (hend : ∀ {g x}, p' = .ended → w.groups.get? g = some x → t ∈ x.tasks → opened' = some g)
    (hopened : ∀ {g x u}, opened = some g → opened' ≠ some g → w.groups.get? g = some x →
      x.awaitedBy = some u → u = t ∧ x.tasks.length = x.handles.length) :
    w.Grouped (l.set t s p') opened' := by
  have hold := Standing.exists_of_set p' ht
  have hnew := Standing.exists_set p' ht
  have hended : ∀ {u s'}, l u = some (s', .ended) → l.set t s p' u = some (s', .ended) := by
    intro u s' hu
    rw [Standing.set_of_ne _ _ _ fun e => ?_, hu]
    subst e
    rw [ht] at hu
    cases hu
    exact hp rfl
  refine ⟨h.idle, h.awaiter, h.member, ?complete, ?together, ?parent, ?rootless, ?waits, ?settled⟩
  case complete =>
    intro g x u hx ha ho
    by_cases e : opened = some g
    · exact (hopened e ho hx ha).2
    · exact h.complete hx ha e
  case together =>
    intro g x u s' q v hx ha hu hv
    obtain ⟨q', hq'⟩ := hold hu
    obtain ⟨q'', hq''⟩ := h.together hx ha hq' hv
    exact hnew hq''
  case parent =>
    intro u s' q y ref hu hy hg
    obtain ⟨q', hq'⟩ := hold hu
    obtain ⟨x, v, q'', hx, hm, ha, hlt, hv⟩ := h.parent hq' hy hg
    obtain ⟨r, hr⟩ := hnew hv
    exact ⟨x, v, r, hx, hm, ha, hlt, hr⟩
  case rootless =>
    intro u s' q y hu hy hg
    obtain ⟨q', hq'⟩ := hold hu
    exact h.rootless hq' hy hg
  case waits =>
    intro u s' g hu
    have hut : u ≠ t := by
      rintro rfl
      rw [Standing.set_self] at hu
      cases hu
      exact hp' g rfl
    rw [Standing.set_of_ne _ _ _ hut] at hu
    obtain ⟨x, hx, ha, hw⟩ := h.waits hu
    refine ⟨x, hx, ha, fun ho => ?_⟩
    by_cases e : opened = some g
    · exact absurd (hopened e ho hx ha).1 hut
    · obtain ⟨v, hv, hn⟩ := hw e
      refine ⟨v, hv, fun hv' => ?_⟩
      rw [Standing.set_apply] at hv'
      split at hv'
      · next evt =>
          cases hv'
          exact ho (hend rfl hx (evt ▸ hv))
      · exact hn hv'
  case settled =>
    intro g x u s' q hx ha hu hq v hv
    by_cases e : u = t
    · subst e
      rw [Standing.set_self] at hu
      cases hu
      by_cases hb : p = .blocked g
      · exact hended (hleave hb hx v hv)
      · exact hended (h.settled hx ha ht hb v hv)
    · rw [Standing.set_of_ne _ _ _ e] at hu
      exact hended (h.settled hx ha hu hq v hv)

/-- A group whose members have not all ended is complete and waited for. -/
theorem Grouped.close {g : Nat} {x : Group} (h : w.Grouped l (some g))
    (hx : w.groups.get? g = some x) (hlen : x.tasks.length = x.handles.length)
    (hw : ∃ u ∈ x.tasks, ∀ s, l u ≠ some (s, .ended)) : w.Grouped l none where
  idle := h.idle
  awaiter := h.awaiter
  member := h.member
  complete {g' y t} hy ha _ := by
    by_cases e : g' = g
    · subst e
      rw [hx] at hy
      cases hy
      exact hlen
    · exact h.complete hy ha fun e' => e (Option.some.inj e').symm
  together := h.together
  parent := h.parent
  rootless := h.rootless
  waits {t s g'} ht := by
    obtain ⟨y, hy, ha, hn⟩ := h.waits ht
    refine ⟨y, hy, ha, fun _ => ?_⟩
    by_cases e : g' = g
    · subst e
      rw [hx] at hy
      cases hy
      obtain ⟨u, hu, hn⟩ := hw
      exact ⟨u, hu, hn s⟩
    · exact hn fun e' => e (Option.some.inj e').symm
  settled := h.settled

/-- When one group changes, a group of the table is that one or is as before. -/
theorem group_cases {g : Nat} {x : Group}
    (hgroups : ∀ i, w'.groups.get? i = if i = g then some x else w.groups.get? i) {i : Nat}
    {y : Group} (hy : w'.groups.get? i = some y) :
    i = g ∧ y = x ∨ i ≠ g ∧ w.groups.get? i = some y := by
  rw [hgroups] at hy
  split at hy
  · next e => exact .inl ⟨e, (Option.some.inj hy).symm⟩
  · next e => exact .inr ⟨e, hy⟩

/-- A task starts a group that nobody has awaited, and waits for it. -/
theorem Grouped.start {t s g : Nat} {x : Group} (h : w.Grouped l none)
    {c : CoroutineRef} (ht : l t = some (s, .current c)) (hrow : t < w.tasks.size) (hx : w.groups.get? g = some x)
    (hfree : x.awaitedBy = none)
    (hgroups : ∀ i, w'.groups.get? i =
      if i = g then some { x with awaitedBy := some t } else w.groups.get? i)
    (htasks : w'.tasks = w.tasks) (hctx : ∀ s, w'.context? s = w.context? s) :
    w'.Grouped (l.set t s (.blocked g)) (some g) := by
  have hnone : x.tasks = [] := h.idle hx hfree
  have hold := Standing.exists_of_set (.blocked g) ht
  have hnew := Standing.exists_set (.blocked g) ht
  have hended : ∀ {u s'}, l u = some (s', .ended) ↔
      l.set t s (.blocked g) u = some (s', .ended) := by
    intro u s'
    rw [Standing.set_apply]
    split
    · next e => simp [e, ht]
    · rfl
  refine ⟨?idle, ?awaiter, ?member, ?complete, ?together, ?parent, ?rootless, ?waits, ?settled⟩
  case idle =>
    intro i y hy ha
    rcases group_cases hgroups hy with ⟨-, rfl⟩ | ⟨-, hy⟩
    · exact hnone
    · exact h.idle hy ha
  case awaiter =>
    intro i y u hy ha
    rw [htasks]
    rcases group_cases hgroups hy with ⟨-, rfl⟩ | ⟨-, hy⟩
    · cases ha
      exact hrow
    · exact h.awaiter hy ha
  case member =>
    intro i y u hy hu
    rw [htasks]
    rcases group_cases hgroups hy with ⟨-, rfl⟩ | ⟨-, hy⟩
    · simp [hnone] at hu
    · exact h.member hy hu
  case complete =>
    intro i y u hy ha ho
    rcases group_cases hgroups hy with ⟨rfl, -⟩ | ⟨-, hy⟩
    · exact absurd rfl ho
    · exact h.complete hy ha (by simp)
  case together =>
    intro i y u s' q v hy ha hu hv
    rcases group_cases hgroups hy with ⟨-, rfl⟩ | ⟨-, hy⟩
    · simp [hnone] at hv
    · obtain ⟨q', hq'⟩ := hold hu
      obtain ⟨q'', hq''⟩ := h.together hy ha hq' hv
      exact hnew hq''
  case parent =>
    intro u s' q y ref hu hy hg
    rw [htasks] at hy
    obtain ⟨q', hq'⟩ := hold hu
    obtain ⟨z, v, q'', hz, hm, ha, hlt, hv⟩ := h.parent hq' hy hg
    obtain ⟨r, hr⟩ := hnew hv
    have hi : ref.id ≠ g := by
      intro e
      rw [e, hx] at hz
      cases hz
      simp [hnone] at hm
    exact ⟨z, v, r, by rw [hgroups, if_neg hi, hz], hm, ha, hlt, hr⟩
  case rootless =>
    intro u s' q y hu hy hg
    rw [htasks] at hy
    obtain ⟨q', hq'⟩ := hold hu
    simpa only [hctx] using h.rootless hq' hy hg
  case waits =>
    -- the group that was started is open, so it need not have a member yet
    intro u s' i hu
    rw [Standing.set_apply] at hu
    split at hu
    · next e =>
        cases hu
        exact ⟨_, by rw [hgroups, if_pos rfl], by rw [e], fun ho => absurd rfl ho⟩
    · obtain ⟨y, hy, ha, hw⟩ := h.waits hu
      have hi : i ≠ g := by
        rintro rfl
        rw [hx] at hy
        cases hy
        rw [hfree] at ha
        cases ha
      obtain ⟨v, hv, hn⟩ := hw (by simp)
      exact ⟨y, by rw [hgroups, if_neg hi, hy], ha, fun _ => ⟨v, hv, fun e => hn (hended.mpr e)⟩⟩
  case settled =>
    intro i y u s' q hy ha hu hq v hv
    rcases group_cases hgroups hy with ⟨rfl, rfl⟩ | ⟨-, hy⟩
    · cases ha
      rw [Standing.set_self] at hu
      cases hu
      exact absurd rfl hq
    · refine hended.mp ?_
      by_cases e : u = t
      · subst e
        rw [Standing.set_self] at hu
        cases hu
        exact h.settled hy ha ht (by simp) v hv
      · rw [Standing.set_of_ne _ _ _ e] at hu
        exact h.settled hy ha hu hq v hv

/-- The members of a group exist. -/
theorem Grouped.lt_size_of_mem {g u : Nat} {x : Group} (h : w.Grouped l opened)
    (hx : w.groups.get? g = some x) (hu : u ∈ x.tasks) : u < w.tasks.size := by
  obtain ⟨y, -, hy, -⟩ := h.member hx hu
  exact Table.lt_size_of_get? hy

section

variable {g n : Nat} {x : Group} (hx : w.groups.get? g = some x)
  (hgroups : ∀ i, w'.groups.get? i =
    if i = g then some { x with tasks := x.tasks ++ [n] } else w.groups.get? i)
include hx hgroups

/-- A group of the table that has one more member is as before, but for the member. -/
theorem old_group_of_append {i : Nat} {z : Group} (hz : w'.groups.get? i = some z) :
    ∃ z₀, w.groups.get? i = some z₀ ∧ z.awaitedBy = z₀.awaitedBy ∧ z.handles = z₀.handles ∧
      (z.tasks = z₀.tasks ∨ i = g ∧ z.tasks = x.tasks ++ [n]) := by
  rcases group_cases hgroups hz with ⟨rfl, rfl⟩ | ⟨-, hz⟩
  · exact ⟨x, hx, rfl, rfl, .inr ⟨rfl, rfl⟩⟩
  · exact ⟨z, hz, rfl, rfl, .inl rfl⟩

theorem new_group_of_append {i : Nat} {z : Group} (hz : w.groups.get? i = some z) :
    ∃ z', w'.groups.get? i = some z' ∧ z'.awaitedBy = z.awaitedBy ∧
      ∀ u ∈ z.tasks, u ∈ z'.tasks := by
  by_cases e : i = g
  · subst e
    cases hx.symm.trans hz
    exact ⟨{ x with tasks := x.tasks ++ [n] }, (hgroups _).trans (if_pos rfl), rfl,
      fun u hu => List.mem_append_left _ hu⟩
  · exact ⟨z, (hgroups i).trans ((if_neg e).trans hz), rfl, fun _ hu => hu⟩

end

/-- A group that is being opened gets one more member, at the end of the task table. -/
theorem Grouped.add {t s g : Nat} {p : Place} {x : Group} {y : Task} {ref : GroupRef}
    (h : w.Grouped l (some g)) (ht : l t = some (s, .blocked g))
    (hlive : ∀ {t}, l t ≠ none → t < w.tasks.size)
    (hx : w.groups.get? g = some x) (ha : x.awaitedBy = some t) (hp : ∀ g, p ≠ .blocked g)
    (hy : y.group = some ref) (href : ref.id = g)
    (hgroups : ∀ i, w'.groups.get? i =
      if i = g then some { x with tasks := x.tasks ++ [w.tasks.size] } else w.groups.get? i)
    (htasks : ∀ u, w'.tasks.get? u = if u = w.tasks.size then some y else w.tasks.get? u)
    (hsize : w'.tasks.size = w.tasks.size + 1) (hctx : ∀ s, w'.context? s = w.context? s) :
    w'.Grouped (l.set w.tasks.size s p) (some g) := by
  have hne : ∀ {u s' q}, l u = some (s', q) → u ≠ w.tasks.size := fun hu =>
    (hlive (by simp [hu])).ne
  have hset : ∀ {u s' q}, l u = some (s', q) → l.set w.tasks.size s p u = some (s', q) :=
    fun hu => by rw [Standing.set_of_ne _ _ _ (hne hu), hu]
  have hold : ∀ {u s' q}, u ≠ w.tasks.size → l.set w.tasks.size s p u = some (s', q) →
      l u = some (s', q) := fun e hu => by rwa [Standing.set_of_ne _ _ _ e] at hu
  have hmember : ∀ {i z u}, w.groups.get? i = some z → u ∈ z.tasks → u ≠ w.tasks.size :=
    fun hz hu => (h.lt_size_of_mem hz hu).ne
  refine ⟨?idle, ?awaiter, ?member, ?complete, ?together, ?parent, ?rootless, ?waits, ?settled⟩
  case idle =>
    intro i z hz hn
    obtain ⟨z₀, hz₀, e, -, ht' | ⟨rfl, -⟩⟩ := old_group_of_append hx hgroups hz
    · rw [ht', h.idle hz₀ (e ▸ hn)]
    · rw [hx] at hz₀
      cases hz₀
      rw [e, ha] at hn
      cases hn
  case awaiter =>
    intro i z u hz hu
    obtain ⟨z₀, hz₀, e, -⟩ := old_group_of_append hx hgroups hz
    rw [hsize]
    exact Nat.lt_succ_of_lt (h.awaiter hz₀ (e ▸ hu))
  case member =>
    intro i z u hz hu
    have hnew : i = g → u = w.tasks.size →
        ∃ y ref, w'.tasks.get? u = some y ∧ y.group = some ref ∧ ref.id = i := fun ei eu =>
      ⟨y, ref, by rw [htasks, if_pos eu], hy, href.trans ei.symm⟩
    have holder : ∀ {z₀}, w.groups.get? i = some z₀ → u ∈ z₀.tasks →
        ∃ y ref, w'.tasks.get? u = some y ∧ y.group = some ref ∧ ref.id = i := by
      intro z₀ hz₀ hu
      obtain ⟨y', ref', hy', hg⟩ := h.member hz₀ hu
      exact ⟨y', ref', by rw [htasks, if_neg (hmember hz₀ hu), hy'], hg⟩
    obtain ⟨z₀, hz₀, -, -, ht' | ⟨ei, ht'⟩⟩ := old_group_of_append hx hgroups hz
    · exact holder hz₀ (ht' ▸ hu)
    · rw [ht'] at hu
      rcases List.mem_append.mp hu with hu | hu
      · exact holder (ei ▸ hx) hu
      · exact hnew ei (List.mem_singleton.mp hu)
  case complete =>
    intro i z u hz hu ho
    obtain ⟨z₀, hz₀, e, e', ht' | ⟨rfl, -⟩⟩ := old_group_of_append hx hgroups hz
    · rw [ht', e']
      exact h.complete hz₀ (e ▸ hu) ho
    · exact absurd rfl ho
  case together =>
    intro i z u s' q v hz hu hl hv
    obtain ⟨z₀, hz₀, e, -, ht'⟩ := old_group_of_append hx hgroups hz
    have hl := hold (h.awaiter hz₀ (e ▸ hu)).ne hl
    rcases ht' with ht' | ⟨rfl, ht'⟩
    · obtain ⟨q', hq'⟩ := h.together hz₀ (e ▸ hu) hl (ht' ▸ hv)
      exact ⟨q', hset hq'⟩
    · rw [hx] at hz₀
      cases hz₀
      rw [ht'] at hv
      rcases List.mem_append.mp hv with hv | hv
      · obtain ⟨q', hq'⟩ := h.together hx (e ▸ hu) hl hv
        exact ⟨q', hset hq'⟩
      · obtain rfl : t = u := by simpa [e, ha] using hu
        rw [ht] at hl
        cases hl
        exact ⟨p, by rw [List.mem_singleton.mp hv, Standing.set_self]⟩
  case parent =>
    -- the new task has the task that opens the group for its parent
    intro u s' q y' ref' hu hy' hg
    by_cases e : u = w.tasks.size
    · subst e
      rw [htasks, if_pos rfl] at hy'
      cases hy'
      rw [hy] at hg
      cases hg
      rw [Standing.set_self] at hu
      cases hu
      exact ⟨{ x with tasks := x.tasks ++ [w.tasks.size] }, t, _, by rw [hgroups, if_pos href],
        by simp, ha, hlive (by simp [ht]), hset ht⟩
    · rw [htasks, if_neg e] at hy'
      obtain ⟨z, v, q', hz, hm, hv, hlt, hq⟩ := h.parent (hold e hu) hy' hg
      obtain ⟨z', hz', ha', hm'⟩ := new_group_of_append hx hgroups hz
      exact ⟨z', v, q', hz', hm' u hm, ha'.trans hv, hlt, hset hq⟩
  case rootless =>
    intro u s' q y' hu hy' hg
    by_cases e : u = w.tasks.size
    · subst e
      rw [htasks, if_pos rfl] at hy'
      cases hy'
      rw [hy] at hg
      cases hg
    · rw [htasks, if_neg e] at hy'
      simpa only [hctx] using h.rootless (hold e hu) hy' hg
  case waits =>
    intro u s' i hu
    by_cases e : u = w.tasks.size
    · rw [e, Standing.set_self] at hu
      cases hu
      exact absurd rfl (hp i)
    · obtain ⟨z, hz, hau, hw⟩ := h.waits (hold e hu)
      obtain ⟨z', hz', ha', hm'⟩ := new_group_of_append hx hgroups hz
      refine ⟨z', hz', ha'.trans hau, fun ho => ?_⟩
      obtain ⟨v, hv, hn⟩ := hw ho
      exact ⟨v, hm' v hv, fun hv' => hn (hold (hmember hz hv) hv')⟩
  case settled =>
    intro i z u s' q hz hu hl hq v hv
    obtain ⟨z₀, hz₀, e, -, ht'⟩ := old_group_of_append hx hgroups hz
    have hl := hold (h.awaiter hz₀ (e ▸ hu)).ne hl
    rcases ht' with ht' | ⟨rfl, -⟩
    · exact hset (h.settled hz₀ (e ▸ hu) hl hq v (ht' ▸ hv))
    · rw [hx] at hz₀
      cases hz₀
      obtain rfl : t = u := by simpa [e, ha] using hu
      rw [ht] at hl
      cases hl
      exact absurd rfl hq

/-- The groups of a run go out of the standing when the run is over. -/
theorem Grouped.without {s : Nat} (h : w.Grouped l opened)
    (hgroups : ∀ g, w'.groups.get? g = w.groups.get? g)
    (hrow : ∀ u, w'.tasks.get? u = w.tasks.get? u) (hsize : w'.tasks.size = w.tasks.size)
    (hstays : ∀ {s' ctx}, s' ≠ s → w.context? s' = some ctx → w'.context? s' = some ctx) :
    w'.Grouped (l.without s) opened := by
  -- a group lies in one run, so its members leave the standing together
  refine ⟨?idle, ?awaiter, ?member, ?complete, ?together, ?parent, ?rootless, ?waits, ?settled⟩
  case idle =>
    intro g x hx
    exact h.idle (hgroups g ▸ hx)
  case awaiter =>
    intro g x t hx ha
    exact hsize ▸ h.awaiter (hgroups g ▸ hx) ha
  case member =>
    intro g x t hx ht
    rw [hrow]
    exact h.member (hgroups g ▸ hx) ht
  case complete =>
    intro g x t hx
    exact h.complete (hgroups g ▸ hx)
  case together =>
    intro g x t s' p u hx ha ht hu
    obtain ⟨ht, e⟩ := Standing.without_eq_some_iff.mp ht
    obtain ⟨q, hq⟩ := h.together (hgroups g ▸ hx) ha ht hu
    exact ⟨q, Standing.without_eq_some_iff.mpr ⟨hq, e⟩⟩
  case parent =>
    intro t s' p y ref ht hy hg
    obtain ⟨ht, e⟩ := Standing.without_eq_some_iff.mp ht
    obtain ⟨x, u, q, hx, hm, ha, hlt, hu⟩ := h.parent ht (hrow t ▸ hy) hg
    exact ⟨x, u, q, (hgroups _).trans hx, hm, ha, hlt, Standing.without_eq_some_iff.mpr ⟨hu, e⟩⟩
  case rootless =>
    intro t s' p y ht hy hg
    obtain ⟨ht, e⟩ := Standing.without_eq_some_iff.mp ht
    obtain ⟨ctx, hc, hr⟩ := h.rootless ht (hrow t ▸ hy) hg
    exact ⟨ctx, hstays e hc, hr⟩
  case waits =>
    intro t s' g ht
    obtain ⟨ht, e⟩ := Standing.without_eq_some_iff.mp ht
    obtain ⟨x, hx, ha, hw⟩ := h.waits ht
    refine ⟨x, (hgroups g).trans hx, ha, fun ho => ?_⟩
    obtain ⟨u, hu, hn⟩ := hw ho
    exact ⟨u, hu, fun hn' => hn (Standing.without_eq_some_iff.mp hn').1⟩
  case settled =>
    intro g x t s' p hx ha ht hp u hu
    obtain ⟨ht, e⟩ := Standing.without_eq_some_iff.mp ht
    exact Standing.without_eq_some_iff.mpr ⟨h.settled (hgroups g ▸ hx) ha ht hp u hu, e⟩

/-! ### All parts -/

theorem Sound.exists_row (h : w.Sound l base opened) {t : Nat} (ht : l t ≠ none) :
    ∃ x, w.tasks.get? t = some x := by
  cases hl : l t with
  | none => exact absurd hl ht
  | some sp =>
      obtain ⟨x, hx, -⟩ := h.chained.holds hl
      exact ⟨x, hx⟩

theorem Sound.lt_size (h : w.Sound l base opened) {t : Nat} (ht : l t ≠ none) :
    t < w.tasks.size := by
  obtain ⟨x, hx⟩ := h.exists_row ht
  exact Table.lt_size_of_get? hx

/-- A task that does not exist yet stands nowhere. -/
theorem Sound.size_eq_none (h : w.Sound l base opened) : l w.tasks.size = none := by
  by_contra hn
  exact (h.lt_size hn).ne rfl

theorem Sound.root_ne_none (h : w.Sound l base opened) {s : Nat} {ctx : RunContext}
    (hc : w.context? s = some ctx) : l ctx.root ≠ none := by
  obtain ⟨p, hp⟩ := h.queued.root hc
  simp [hp]

end World

end Coroutines
