import Coroutines.Proofs.Tables
import Mathlib.Data.List.Chain

/-!
# Where the tasks of the runs in progress stand

A `Standing` assigns to each task of a run in progress the scheduler of the run and a place: in
its resume, in the ready queue, waiting for a group, or ended.  A world is sound for a standing
when its tables say the same (`Sound`), in three parts:

* `Queued`: the ready queues hold the tasks that are ready, each once;
* `Chained`: a task holds the coroutines of its await chain, which no other task holds, and they
  wait for one another (`Holds`);
* `Grouped`: tasks and groups form a tree under the root of each run, and a task waits for a group
  exactly as long as some member has not ended.
-/

namespace Coroutines

/-- Where a task of a run in progress stands. -/
inductive Place where
  /-- Its coroutine is being resumed. -/
  | current (top : CoroutineRef)
  /-- In the ready queue. -/
  | ready
  /-- Waiting for the members of a group. -/
  | blocked (group : Nat)
  /-- It has an outcome. -/
  | ended
  deriving DecidableEq

/-- How a run was started: its root task and the coroutine of it. -/
structure Start where
  root : Nat
  coroutine : CoroutineRef

/-- The scheduler and the place of each task of a run in progress. -/
abbrev Standing := Nat → Option (Nat × Place)

namespace Standing

/-- The standing after a task took a place. -/
def set (l : Standing) (t s : Nat) (p : Place) : Standing :=
  Function.update l t (some (s, p))

/-- The standing once the run of a scheduler is over. -/
def without (l : Standing) (s : Nat) : Standing := fun t => (l t).filter (·.1 ≠ s)

/-- No task of a run is being resumed: the run is between two turns. -/
def Calm (l : Standing) (s : Nat) : Prop := ∀ t c, l t ≠ some (s, .current c)

theorem set_apply (l : Standing) (t s : Nat) (p : Place) (u : Nat) :
    l.set t s p u = if u = t then some (s, p) else l u := Function.update_apply ..

@[simp] theorem set_self (l : Standing) (t s : Nat) (p : Place) :
    l.set t s p t = some (s, p) := by simp [set]

theorem set_of_ne (l : Standing) {t u : Nat} (s : Nat) (p : Place) (h : u ≠ t) :
    l.set t s p u = l u := by simp [set, h]

/-- A move within a run leaves the scheduler of every task. -/
theorem exists_of_set {l : Standing} {t s : Nat} {p : Place} (p' : Place)
    (ht : l t = some (s, p)) ⦃u s' : Nat⦄ ⦃q : Place⦄ (hu : l.set t s p' u = some (s', q)) :
    ∃ q', l u = some (s', q') := by
  rw [set_apply] at hu
  split at hu
  · next e =>
      cases hu
      exact ⟨p, e ▸ ht⟩
  · exact ⟨q, hu⟩

theorem exists_set {l : Standing} {t s : Nat} {p : Place} (p' : Place) (ht : l t = some (s, p))
    ⦃u s' : Nat⦄ ⦃q : Place⦄ (hu : l u = some (s', q)) : ∃ q', l.set t s p' u = some (s', q') := by
  by_cases e : u = t
  · subst e
    rw [ht] at hu
    cases hu
    exact ⟨p', set_self ..⟩
  · exact ⟨q, by rw [set_of_ne _ _ _ e, hu]⟩

theorem without_eq_some_iff {l : Standing} {s t s' : Nat} {p : Place} :
    l.without s t = some (s', p) ↔ l t = some (s', p) ∧ s' ≠ s := by
  simp [without, Option.filter_eq_some_iff]

/-- A move within a run does not show outside it. -/
theorem without_set {l : Standing} {t s : Nat} (p : Place)
    (h : ∀ s' q, l t = some (s', q) → s' = s) : (l.set t s p).without s = l.without s := by
  funext u
  by_cases hu : u = t
  · subst hu
    cases hl : l u with
    | none => simp [without, hl]
    | some x =>
        have hx : x.1 = s := h x.1 x.2 hl
        simp [without, hl, hx, Option.filter]
  · simp [without, set_of_ne l s p hu]

/-- Outside a scheduler without a run nothing changes when its run ends. -/
theorem without_eq_self {l : Standing} {s : Nat} (h : ∀ t p, l t ≠ some (s, p)) :
    l.without s = l := by
  funext t
  cases hl : l t with
  | none => simp [without, hl]
  | some x =>
      have hx : x.1 ≠ s := fun e => h t x.2 (by rw [hl, ← e])
      simp [without, hl, hx]

/-- The root of a run that starts is the first to be resumed. -/
theorem calm_set_ready {l : Standing} {s : Nat} (h : ∀ t p, l t ≠ some (s, p)) (root : Nat) :
    (l.set root s .ready).Calm s := by
  intro t d e
  rw [set_apply] at e
  split at e
  · cases e
  · exact h t _ e

/-- A root that stood nowhere is all that a run starts with. -/
theorem without_set_ready {l : Standing} {s root : Nat} (h : ∀ t p, l t ≠ some (s, p))
    (hroot : l root = none) : (l.set root s .ready).without s = l := by
  rw [without_set .ready fun s' q e => ?_, without_eq_self h]
  rw [hroot] at e
  cases e

/-- A standing after something happened in the run of a scheduler: no task of another run moved, none
left the run, and none was taken up. -/
structure After (l' l : Standing) (s : Nat) : Prop where
  outside : l'.without s = l.without s
  stays : ∀ t p, l t = some (s, p) → ∃ p', l' t = some (s, p')
  calm : ∀ t c, l' t = some (s, .current c) → l t = some (s, .current c)

namespace After

theorem refl (l : Standing) (s : Nat) : l.After l s :=
  ⟨rfl, fun _ p h => ⟨p, h⟩, fun _ _ h => h⟩

theorem trans {l l' l'' : Standing} {s : Nat} (h : l''.After l' s) (h' : l'.After l s) :
    l''.After l s :=
  ⟨h.outside.trans h'.outside, fun t p ht => (h'.stays t p ht).elim fun p' => h.stays t p',
    fun t c ht => h'.calm t c (h.calm t c ht)⟩

theorem set {l : Standing} {t s : Nat} {p : Place} (hl : ∀ s' q, l t = some (s', q) → s' = s)
    (hp : ∀ c, p ≠ .current c) : (l.set t s p).After l s where
  outside := without_set p hl
  stays u q hu := by
    rw [set_apply]
    split
    · exact ⟨p, rfl⟩
    · exact ⟨q, hu⟩
  calm u c hu := by
    rw [set_apply] at hu
    split at hu
    · cases hu
      exact absurd rfl (hp c)
    · exact hu

end After

end Standing

namespace World

variable {β σ : Type} (w : World β σ)

/-! ### Coroutines of a chain -/

/-- A coroutine belongs to the task of a number. -/
def Belongs (c : CoroutineRef) (task : Nat) : Prop :=
  ∃ h, w.handles.get? c.id = some h ∧ h.owner = some task

/-- A coroutine is suspended and waits for a target. -/
def Waits (c : CoroutineRef) (target : Target) : Prop :=
  ∃ h, w.handles.get? c.id = some h ∧ h.status = .suspended ∧ h.pending = some target

/-- A coroutine can take an input: it has not started and is to start, or is suspended and is to
go on. -/
def Takes (c : CoroutineRef) (input : Input) : Prop :=
  ∃ h, w.handles.get? c.id = some h ∧
    (h.status = .created ∧ input.isStart = true ∨ h.status = .suspended ∧ input.isStart = false)

def Runs (c : CoroutineRef) : Prop := ∃ h, w.handles.get? c.id = some h ∧ h.status = .running

def Finished (c : CoroutineRef) : Prop :=
  ∃ h, w.handles.get? c.id = some h ∧ h.status.isFinished = true

/-- How the head of a task's chain is, by the task's place. -/
def Heads (c : CoroutineRef) (input : Input) : Place → Prop
  | .current top => top = c ∧ w.Runs c ∧ input.isStart = true
  | .ready => w.Takes c input
  | .blocked g => ∃ ref : GroupRef, ref.id = g ∧ w.Waits c (.group ref)
  | .ended => True

/-- A task holds the coroutines of its chain, each but the head waiting for the one before it; a
task that has ended holds none. -/
structure Holds (x : Task) (p : Place) : Prop where
  outcome : x.outcome.isSome = true ↔ p = .ended
  empty : x.chain = [] ↔ p = .ended
  owned : ∀ c ∈ x.chain, w.Belongs c x.id
  nodup : (x.chain.map CoroutineRef.id).Nodup
  linked : List.IsChain (fun c d => w.Waits d (.coroutine c)) x.chain
  head : ∀ c ∈ x.chain.head?, w.Heads c x.inbox p

/-! ### The three parts -/

/-- The ready queues agree with a standing. -/
structure Queued (l : Standing) : Prop where
  root : ∀ {s ctx}, w.context? s = some ctx → ∃ p, l ctx.root = some (s, p)
  nodup : ∀ {s ctx}, w.context? s = some ctx → ctx.ready.Nodup
  ready : ∀ {s ctx}, w.context? s = some ctx → ∀ t, t ∈ ctx.ready ↔ l t = some (s, .ready)
  active : ∀ {t s p}, l t = some (s, p) → ∃ ctx, w.context? s = some ctx
  alone : ∀ {s t u c d}, l t = some (s, .current c) → l u = some (s, .current d) → t = u

/-- The chains agree with a standing; `base` says how each run was started, with a coroutine that
stays in the root's chain until it has finished. -/
structure Chained (l : Standing) (base : Nat → Start) : Prop where
  holds : ∀ {t s p}, l t = some (s, p) → ∃ x, w.tasks.get? t = some x ∧ w.Holds x p
  apart : ∀ {t u x y c d}, l t ≠ none → l u ≠ none → w.tasks.get? t = some x →
    w.tasks.get? u = some y → c ∈ x.chain → d ∈ y.chain → c.id = d.id → t = u
  base : ∀ ⦃s ctx⦄, w.context? s = some ctx → ctx.root = (base s).root ∧
    ∀ x, w.tasks.get? ctx.root = some x →
      (base s).coroutine ∈ x.chain ∨ w.Finished (base s).coroutine

/-- The groups agree with a standing, except for a group that is being opened or closed. -/
structure Grouped (l : Standing) (opened : Option Nat) : Prop where
  idle : ∀ {g x}, w.groups.get? g = some x → x.awaitedBy = none → x.tasks = []
  awaiter : ∀ {g x t}, w.groups.get? g = some x → x.awaitedBy = some t → t < w.tasks.size
  member : ∀ {g x t}, w.groups.get? g = some x → t ∈ x.tasks →
    ∃ y ref, w.tasks.get? t = some y ∧ y.group = some ref ∧ ref.id = g
  complete : ∀ {g x t}, w.groups.get? g = some x → x.awaitedBy = some t → opened ≠ some g →
    x.tasks.length = x.handles.length
  together : ∀ {g x t s p u}, w.groups.get? g = some x → x.awaitedBy = some t →
    l t = some (s, p) → u ∈ x.tasks → ∃ q, l u = some (s, q)
  parent : ∀ {t s p y ref}, l t = some (s, p) → w.tasks.get? t = some y → y.group = some ref →
    ∃ x u q, w.groups.get? ref.id = some x ∧ t ∈ x.tasks ∧ x.awaitedBy = some u ∧ u < t ∧
      l u = some (s, q)
  rootless : ∀ {t s p y}, l t = some (s, p) → w.tasks.get? t = some y → y.group = none →
    ∃ ctx, w.context? s = some ctx ∧ ctx.root = t
  waits : ∀ {t s g}, l t = some (s, .blocked g) → ∃ x, w.groups.get? g = some x ∧
    x.awaitedBy = some t ∧ (opened ≠ some g → ∃ u ∈ x.tasks, l u ≠ some (s, .ended))
  settled : ∀ {g x t s p}, w.groups.get? g = some x → x.awaitedBy = some t → l t = some (s, p) →
    p ≠ .blocked g → ∀ u ∈ x.tasks, l u = some (s, .ended)

/-- The tables agree with a standing. -/
structure Sound (l : Standing) (base : Nat → Start) (opened : Option Nat) : Prop where
  queued : w.Queued l
  chained : w.Chained l base
  grouped : w.Grouped l opened

/-! ### Chains in changing tables -/

variable {w} {w' : World β σ}

theorem Belongs.of_get? {c : CoroutineRef} {task : Nat} (h : w.Belongs c task)
    (e : w'.handles.get? c.id = w.handles.get? c.id) : w'.Belongs c task := by
  obtain ⟨x, hx, ho⟩ := h
  exact ⟨x, e.trans hx, ho⟩

theorem Waits.of_get? {c : CoroutineRef} {target : Target} (h : w.Waits c target)
    (e : w'.handles.get? c.id = w.handles.get? c.id) : w'.Waits c target := by
  obtain ⟨x, hx, hs⟩ := h
  exact ⟨x, e.trans hx, hs⟩

theorem Finished.of_get? {c : CoroutineRef} (h : w.Finished c)
    (e : w'.handles.get? c.id = w.handles.get? c.id) : w'.Finished c := by
  obtain ⟨x, hx, hs⟩ := h
  exact ⟨x, e.trans hx, hs⟩

theorem Heads.of_get? {c : CoroutineRef} {input : Input} {p : Place} (h : w.Heads c input p)
    (e : w'.handles.get? c.id = w.handles.get? c.id) : w'.Heads c input p := by
  cases p with
  | current top =>
      obtain ⟨ht, ⟨x, hx, hs⟩, hi⟩ := h
      exact ⟨ht, ⟨x, e.trans hx, hs⟩, hi⟩
  | ready =>
      obtain ⟨x, hx, hs⟩ := h
      exact ⟨x, e.trans hx, hs⟩
  | blocked g =>
      obtain ⟨ref, hr, hw⟩ := h
      exact ⟨ref, hr, hw.of_get? e⟩
  | ended => trivial

/-- A coroutine that waits, runs or is to be resumed has not finished. -/
theorem Waits.not_finished {c : CoroutineRef} {target : Target} (h : w.Waits c target) :
    ¬ w.Finished c := by
  rintro ⟨y, hy, hf⟩
  obtain ⟨x, hx, hs, -⟩ := h
  rw [hx] at hy
  cases hy
  simp [hs, Status.isFinished] at hf

theorem Heads.not_finished {c : CoroutineRef} {input : Input} {p : Place}
    (h : w.Heads c input p) (hp : p ≠ .ended) : ¬ w.Finished c := by
  cases p with
  | current top =>
      rintro ⟨y, hy, hf⟩
      obtain ⟨-, ⟨x, hx, hs⟩, -⟩ := h
      rw [hx] at hy
      cases hy
      simp [hs, Status.isFinished] at hf
  | ready =>
      rintro ⟨y, hy, hf⟩
      obtain ⟨x, hx, ⟨hs, -⟩ | ⟨hs, -⟩⟩ := h <;>
        · rw [hx] at hy
          cases hy
          simp [hs, Status.isFinished] at hf
  | blocked g =>
      obtain ⟨ref, -, hw⟩ := h
      exact hw.not_finished
  | ended => exact absurd rfl hp

namespace Holds

variable {x x' : Task} {p p' : Place}

/-- A chain is held as long as the rows of its coroutines stay. -/
theorem of_get? (h : w.Holds x p)
    (e : ∀ c ∈ x.chain, w'.handles.get? c.id = w.handles.get? c.id) : w'.Holds x p where
  outcome := h.outcome
  empty := h.empty
  owned c hc := (h.owned c hc).of_get? (e c hc)
  nodup := h.nodup
  linked := h.linked.imp_of_mem_tail_imp fun _ d _ hd hw => hw.of_get? (e d (List.mem_of_mem_tail hd))
  head c hc := (h.head c hc).of_get? (e c (List.mem_of_mem_head? hc))

/-- A task that has not ended may change its place and what it is handed; of its coroutines only
the head changes, and stays its own. -/
theorem move (h : w.Holds x p) (hp : p ≠ .ended) (hp' : p' ≠ .ended) (hid : x'.id = x.id)
    (hchain : x'.chain = x.chain) (hout : x'.outcome = x.outcome)
    (howned : ∀ c ∈ x.chain, w.Belongs c x.id → w'.Belongs c x.id)
    (htail : ∀ c ∈ x.chain.tail, w'.handles.get? c.id = w.handles.get? c.id)
    (hhead : ∀ c ∈ x.chain.head?, w'.Heads c x'.inbox p') : w'.Holds x' p' where
  outcome := by rw [hout, h.outcome]; exact iff_of_false hp hp'
  empty := by rw [hchain, h.empty]; exact iff_of_false hp hp'
  owned c hc := by
    rw [hid]
    rw [hchain] at hc
    exact howned c hc (h.owned c hc)
  nodup := hchain ▸ h.nodup
  linked := by
    rw [hchain]
    exact h.linked.imp_of_mem_tail_imp fun _ d _ hd hw => hw.of_get? (htail d hd)
  head c hc := hhead c (hchain ▸ hc)

/-- A task that has not ended goes on holding its chain when only the row of the head changes. -/
theorem move_head {top : CoroutineRef} {rest : List CoroutineRef} {y y' : Handle β}
    (h : w.Holds x p) (hp : p ≠ .ended) (hp' : p' ≠ .ended) (hid : x'.id = x.id)
    (hchain : x'.chain = x.chain) (hout : x'.outcome = x.outcome) (hc : x.chain = top :: rest)
    (hy : w.handles.get? top.id = some y)
    (hget : ∀ i, w'.handles.get? i = if top.id = i then some y' else w.handles.get? i)
    (howner : y'.owner = y.owner) (hhead : w'.Heads top x'.inbox p') : w'.Holds x' p' := by
  have hn := h.nodup
  rw [hc, List.map_cons, List.nodup_cons] at hn
  refine h.move hp hp' hid hchain hout (fun c _ hb => ?_) (fun c hd => ?_) fun c hd => ?_
  · obtain ⟨z, hz, ho⟩ := hb
    by_cases e : top.id = c.id
    · rw [← e, hy] at hz
      cases hz
      exact ⟨y', (hget _).trans (if_pos e), howner.trans ho⟩
    · exact ⟨z, (hget _).trans ((if_neg e).trans hz), ho⟩
  · rw [hc] at hd
    have hne : top.id ≠ c.id := fun e => hn.1 (e ▸ List.mem_map_of_mem hd)
    exact (hget _).trans (if_neg hne)
  · rw [hc] at hd
    cases hd
    exact hhead

/-- A new task holds the coroutine that it was claimed for. -/
theorem fresh {c : CoroutineRef} {y : Handle β} (hchain : x.chain = [c]) (hout : x.outcome = none)
    (hinbox : x.inbox = .start) (hc : w.handles.get? c.id = some (y.ownedBy x.id))
    (hs : y.status = .created) : w.Holds x .ready where
  outcome := by simp [hout]
  empty := by simp [hchain]
  owned d hd := by
    rw [hchain] at hd
    rw [List.mem_singleton.mp hd]
    exact ⟨_, hc, rfl⟩
  nodup := by simp [hchain]
  linked := by simp [hchain]
  head d hd := by
    rw [hchain] at hd
    cases hd
    exact ⟨_, hc, .inl ⟨hs, by rw [hinbox]; rfl⟩⟩

/-- A task with an outcome holds an empty chain. -/
theorem of_ended (hchain : x.chain = []) (hout : x.outcome.isSome = true) : w.Holds x .ended where
  outcome := by simp [hout]
  empty := by simp [hchain]
  owned c hc := by
    rw [hchain] at hc
    cases hc
  nodup := by simp [hchain]
  linked := by simp [hchain]
  head c hc := by
    rw [hchain] at hc
    cases hc

/-- The chain of a task that has not ended has a head. -/
theorem exists_head (h : w.Holds x p) (hp : p ≠ .ended) : ∃ c rest, x.chain = c :: rest := by
  cases hx : x.chain with
  | nil => exact absurd (h.empty.mp hx) hp
  | cons c rest => exact ⟨c, rest, rfl⟩

/-- No coroutine of a chain has finished. -/
theorem not_finished (h : w.Holds x p) {c : CoroutineRef} (hc : c ∈ x.chain) :
    ¬ w.Finished c := by
  have hp : p ≠ .ended := fun e => by
    rw [h.empty.mpr e] at hc
    cases hc
  obtain ⟨top, rest, hx⟩ := h.exists_head hp
  rw [hx] at hc
  rcases List.mem_cons.mp hc with rfl | hc
  · exact (h.head c (by rw [hx]; rfl)).not_finished hp
  · -- below the head every coroutine waits for the one before it
    have hl := h.linked
    rw [hx] at hl
    clear hx
    induction rest generalizing top with
    | nil => cases hc
    | cons d rest ih =>
        obtain ⟨hw, hl⟩ := List.isChain_cons_cons.mp hl
        rcases List.mem_cons.mp hc with rfl | hc
        · exact hw.not_finished
        · exact ih d (List.mem_cons_of_mem d hc) hc hl

end Holds

end World

end Coroutines
