import Coroutines.Proofs.Ownership.Reached
import Mathlib.Data.List.Nodup
import Mathlib.Logic.ExistsUnique

/-!
# Who owns what between two turns

What the tables of a world show of a run between two turns, in terms of the tables alone: in which
of three situations each task of the run is, and how the coroutines of its chain are.
-/

namespace Coroutines

namespace World

variable {β σ : Type} (w : World β σ)

/-- The tasks of a run: its root, and the members of the groups that tasks of the run await. -/
inductive TaskOf (root : Nat) : Nat → Prop
  | root : TaskOf root root
  | member {t u g : Nat} {x : Group} (h : TaskOf root t) (hx : w.groups.get? g = some x)
      (ha : x.awaitedBy = some t) (hu : u ∈ x.tasks) : TaskOf root u

/-- A task is in the ready queue of a run, once. -/
def Listed (s t : Nat) : Prop := ∃ ctx, w.context? s = some ctx ∧ ctx.ready.count t = 1

/-- A task is not in the ready queue of a run. -/
def Unlisted (s t : Nat) : Prop := ∀ ctx, w.context? s = some ctx → t ∉ ctx.ready

/-- A task awaits a group that has been started and is not yet quiescent. -/
def Awaits (t g : Nat) : Prop :=
  ∃ x, w.groups.get? g = some x ∧ x.awaitedBy = some t ∧
    w.quiescent ⟨g, x.handles.length⟩ = false

/-- A task is out of the queue and waits for exactly one group. -/
def Waiting (s t : Nat) : Prop := w.Unlisted s t ∧ ∃! g, w.Awaits t g

/-- A task has an outcome and is in no queue. -/
def Over (t : Nat) : Prop := (w.taskOutcome? t).isSome = true ∧ ∀ s, w.Unlisted s t

/-- A coroutine is in the chain of a task of some run in progress. -/
def Chain (t : Nat) (i : Nat) : Prop :=
  ∃ s ctx x, w.context? s = some ctx ∧ w.TaskOf ctx.root t ∧ w.tasks.get? t = some x ∧
    ∃ c ∈ x.chain, c.id = i

/-- The run of a scheduler owns its tasks and coroutines: the tables agree on each of them. -/
structure Owned (s root : Nat) : Prop where
  /-- The run is in progress. -/
  active : ∃ ctx, w.context? s = some ctx ∧ ctx.root = root
  /-- Every task of the run is in exactly one situation. -/
  situated : ∀ {t}, w.TaskOf root t → (∃ x, w.tasks.get? t = some x) ∧
    (w.Listed s t ∧ ¬ w.Waiting s t ∧ ¬ w.Over t ∨ ¬ w.Listed s t ∧ w.Waiting s t ∧ ¬ w.Over t ∨
      ¬ w.Listed s t ∧ ¬ w.Waiting s t ∧ w.Over t)
  /-- A coroutine in the chain of a task that has not ended belongs to the task, and is in its
  chain once and in no other chain of any run in progress. -/
  exclusive : ∀ {t x}, w.TaskOf root t → w.tasks.get? t = some x → x.outcome = none →
    ∀ c ∈ x.chain, w.Belongs c x.id ∧ (x.chain.map CoroutineRef.id).count c.id = 1 ∧
      ∀ u, w.Chain u c.id → u = t
  /-- Each coroutine of a chain but the head is suspended and waits for the one before it. -/
  linked : ∀ {t x}, w.TaskOf root t → w.tasks.get? t = some x →
    List.IsChain (fun c d => w.Waits d (.coroutine c)) x.chain
  /-- The head of the chain of a ready task has not started if the task's input is to start it, and
  is suspended otherwise. -/
  ready : ∀ {t x}, w.TaskOf root t → w.tasks.get? t = some x → w.Listed s t →
    ∃ c rest h, x.chain = c :: rest ∧ w.handles.get? c.id = some h ∧
      (h.status = .created ↔ x.inbox.isStart = true) ∧
      (x.inbox.isStart = false → h.status = .suspended)
  /-- The head of the chain of a waiting task is suspended and waits for the task's group. -/
  blocked : ∀ {t x g}, w.TaskOf root t → w.tasks.get? t = some x → w.Unlisted s t →
    w.Awaits t g → ∃ c rest ref, x.chain = c :: rest ∧ ref.id = g ∧ w.Waits c (.group ref)

variable {w} {w' : World β σ} {l : Standing} {base : Nat → Start}

/-! ### The tasks of a run -/

/-- The tasks of a run stand in it. -/
theorem Sound.standing_of_taskOf (h : w.Sound l base none) {s : Nat} {ctx : RunContext}
    (hc : w.context? s = some ctx) {t : Nat} (ht : w.TaskOf ctx.root t) : ∃ p, l t = some (s, p) := by
  induction ht with
  | root => exact h.queued.root hc
  | member _ hx ha hu ih =>
      obtain ⟨p, hp⟩ := ih
      exact h.grouped.together hx ha hp hu

/-! ### The situation of a task -/

theorem Sound.quiescent_of_settled (h : w.Sound l base none) {t s g : Nat} {p : Place} {x : Group}
    (ht : l t = some (s, p)) (hx : w.groups.get? g = some x) (ha : x.awaitedBy = some t)
    (hp : p ≠ .blocked g) : w.quiescent ⟨g, x.handles.length⟩ = true := by
  refine (quiescent_iff hx (h.grouped.complete hx ha nofun)).mpr fun u hu => ?_
  exact (h.outcome_iff hx ha ht hu).mpr (h.grouped.settled hx ha ht hp u hu)

/-- A task awaits the group that it waits for and no other. -/
theorem Sound.awaits_iff (h : w.Sound l base none) {t s g : Nat} {p : Place}
    (ht : l t = some (s, p)) : w.Awaits t g ↔ p = .blocked g := by
  constructor
  · rintro ⟨x, hx, ha, hq⟩
    by_contra hp
    rw [h.quiescent_of_settled ht hx ha hp] at hq
    cases hq
  · rintro rfl
    obtain ⟨x, hx, ha, hw⟩ := h.grouped.waits ht
    obtain ⟨u, hu, hn⟩ := hw nofun
    refine ⟨x, hx, ha, Bool.eq_false_iff.mpr fun hq => hn ?_⟩
    rw [quiescent_iff hx (h.grouped.complete hx ha nofun)] at hq
    exact (h.outcome_iff hx ha ht hu).mp (hq u hu)

theorem Sound.listed_iff (h : w.Sound l base none) {t s : Nat} :
    w.Listed s t ↔ l t = some (s, .ready) := by
  constructor
  · rintro ⟨ctx, hc, hn⟩
    exact (h.queued.ready hc t).mp (List.count_pos_iff.mp (by omega))
  · intro ht
    obtain ⟨ctx, hc⟩ := h.queued.active ht
    exact ⟨ctx, hc, List.count_eq_one_of_mem (h.queued.nodup hc) ((h.queued.ready hc t).mpr ht)⟩

theorem Sound.unlisted_iff (h : w.Sound l base none) {t s : Nat} :
    w.Unlisted s t ↔ l t ≠ some (s, .ready) := by
  constructor
  · intro hn ht
    obtain ⟨ctx, hc⟩ := h.queued.active ht
    exact hn ctx hc ((h.queued.ready hc t).mpr ht)
  · intro hn ctx hc ht
    exact hn ((h.queued.ready hc t).mp ht)

theorem Sound.waiting_iff (h : w.Sound l base none) {t s : Nat} {p : Place}
    (ht : l t = some (s, p)) : w.Waiting s t ↔ ∃ g, p = .blocked g := by
  simp only [Waiting, h.unlisted_iff, h.awaits_iff ht, ht]
  constructor
  · rintro ⟨-, g, hg, -⟩
    exact ⟨g, hg⟩
  · rintro ⟨g, rfl⟩
    exact ⟨nofun, g, rfl, fun g' e => (Place.blocked.inj e).symm⟩

theorem Sound.over_iff (h : w.Sound l base none) {t s : Nat} {p : Place}
    (ht : l t = some (s, p)) : w.Over t ↔ p = .ended := by
  obtain ⟨x, hx, hh⟩ := h.chained.holds ht
  rw [Over, taskOutcome?_of_get? hx, hh.outcome]
  refine and_iff_left_of_imp ?_
  rintro rfl s'
  rw [h.unlisted_iff, ht]
  nofun

/-! ### The run as a whole -/

/-- **A poised run owns its tasks and coroutines.** -/
theorem Poised.owned {s root : Nat} {c : CoroutineRef} (h : w.Poised s root c l base) :
    w.Owned s root := by
  obtain ⟨ctx, hc⟩ := h.active
  obtain rfl := h.root_eq hc
  have hstand := fun {t} (ht : w.TaskOf ctx.root t) => h.sound.standing_of_taskOf hc ht
  have hrow : ∀ {t s' p x}, l t = some (s', p) → w.tasks.get? t = some x → w.Holds x p := by
    intro t s' p x hp hx
    obtain ⟨y, hy, hh⟩ := h.sound.chained.holds hp
    rw [hx] at hy
    cases hy
    exact hh
  refine ⟨⟨ctx, hc, rfl⟩, ?situated, ?exclusive, ?linked, ?ready, ?blocked⟩
  case situated =>
    intro t ht
    obtain ⟨p, hp⟩ := hstand ht
    refine ⟨h.sound.exists_row (by simp [hp]), ?_⟩
    rw [h.sound.listed_iff, h.sound.waiting_iff hp, h.sound.over_iff hp, hp]
    cases p with
    | current d => exact absurd hp (h.calm t d)
    | ready => simp
    | blocked g => simp
    | ended => simp
  case exclusive =>
    intro t x ht hx _ d hd
    obtain ⟨p, hp⟩ := hstand ht
    have hh := hrow hp hx
    refine ⟨hh.owned d hd, List.count_eq_one_of_mem hh.nodup (List.mem_map_of_mem hd), ?_⟩
    rintro u ⟨s', ctx', y, hc', hu, hy, e, he, hid⟩
    obtain ⟨q, hq⟩ := h.sound.standing_of_taskOf hc' hu
    exact h.sound.chained.apart (by simp [hq]) (by simp [hp]) hy hx he hd hid
  case linked =>
    intro t x ht hx
    obtain ⟨p, hp⟩ := hstand ht
    exact (hrow hp hx).linked
  case ready =>
    intro t x ht hx hready
    have hp := h.sound.listed_iff.mp hready
    have hh := hrow hp hx
    obtain ⟨d, rest, hchain⟩ := hh.exists_head nofun
    obtain ⟨y, hy, hs⟩ := hh.head d (by simp [hchain])
    refine ⟨d, rest, y, hchain, hy, ?_⟩
    rcases hs with ⟨hs, hi⟩ | ⟨hs, hi⟩ <;> simp [hs, hi]
  case blocked =>
    intro t x g ht hx hn ha
    obtain ⟨p, hp⟩ := hstand ht
    obtain rfl := (h.sound.awaits_iff hp).mp ha
    have hh := hrow hp hx
    obtain ⟨d, rest, hchain⟩ := hh.exists_head nofun
    obtain ⟨ref, hr, hw⟩ := hh.head d (by simp [hchain])
    exact ⟨d, rest, ref, hchain, hr, hw⟩

/-- **Between any two turns of any run, however deep it is nested in others, the run owns its tasks
and coroutines.**  This holds for all bodies that touch coroutines by running and grouping them only,
whether they fail with errors of the host or not, and all runs that such an action opens. -/
theorem owned_between_turns {bodies : Bodies β σ} (hb : bodies.masked.Orderly) {α : Type}
    {action : Action β σ α} (ha : action.masked.Orderly) {limits : List (Option Number)} {shared : σ}
    {fuel depth s root : Nat} {c : CoroutineRef} {log : List (CoroutineRef × Step)}
    (ho : Opens bodies action fuel (World.initial limits shared) s c depth root w)
    (ht : Turns (resume bodies depth) s w log w') : w'.Owned s root := by
  obtain ⟨l, base, hp⟩ := poised_between_turns hb ha ho ht
  exact hp.owned

/-- After its first turn the gathering coroutine waits for its group, and the member is ready. -/
theorem owned_after_gathering :
    (gatheringWaits.context? 0).map RunContext.ready = some [1] ∧ gatheringWaits.Owned 0 0 :=
  ⟨rfl, owned_between_turns gathering_orderly.masked runGathering_orderly.masked opens_gathering
    turns_gathering⟩

end World

end Coroutines
