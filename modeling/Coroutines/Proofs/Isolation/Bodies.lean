import Coroutines.Proofs.Tables
import Coroutines.Proofs.Names
import Coroutines.Scheduler

/-!
# Isolated bodies

The resume of an isolated body depends on the frame and the input alone, and on shared data that no coroutine
changes (`Isolation`).  What it may change besides its own coroutine is new: it may make coroutines and groups,
write shared data that nothing reads, and run what it has made on another scheduler (`World.Moved`).  It cannot
tell how new things are numbered, so that two executions which number them in different ways go on alike
(`World.Advances`).
-/

namespace Coroutines

/-! ### Rows that agree -/

/-- A coroutine that has not started and belongs to no task. -/
def Handle.Fresh {β : Type} (h : Handle β) : Prop := h.status = .created ∧ h.owner = none

/-- A group that nobody awaits yet. -/
def Group.Fresh (x : Group) : Prop := x.awaitedBy = none ∧ x.tasks = []

/-- Coroutines that stand at the same place of bodies that agree. -/
structure Handle.Alike {β : Type} (body : Names → β → β → Prop) (ρ : Names) (h h' : Handle β) :
    Prop where
  name : h.name = h'.name
  body : body ρ h.body h'.body
  frame : h.frame.Alike Eq ρ h'.frame
  status : h.status = h'.status

theorem Handle.Alike.imp {β : Type} {body : Names → β → β → Prop} {ρ ρ' : Names} (hle : ρ ≤ ρ') {h h' : Handle β}
    (hbody : body ρ h.body h'.body → body ρ' h.body h'.body) (hh : h.Alike body ρ h') : h.Alike body ρ' h' :=
  ⟨hh.name, hbody hh.body, hh.frame.mono hle, hh.status⟩

/-- Groups of members that correspond. -/
structure Group.Alike (ρ : Names) (x x' : Group) : Prop where
  handles : List.Forall₂ (CoroutineRef.Alike ρ) x.handles x'.handles
  returnExceptions : x.returnExceptions = x'.returnExceptions

theorem Group.Alike.mono {ρ ρ' : Names} (hle : ρ ≤ ρ') {x x' : Group} (h : x.Alike ρ x') :
    x.Alike ρ' x' := ⟨h.handles.imp fun _ _ hc => hc.mono hle, h.returnExceptions⟩

/-- What a scheduler is set to: its run, as far as it has come, and its limit. -/
def Scheduler.standing (x : Scheduler) : Option RunContext × Option Number := (x.context, x.maxSteps)

namespace World

variable {β σ : Type}

/-- How many names of a kind are in use. -/
def extent (w : World β σ) : NameKind → Nat
  | .coroutine => w.handles.size
  | .group => w.groups.size
  | .identity => w.nextIdentity

/-- Whether a scheduler is in a run, and its limit. -/
def mode (w : World β σ) (s : Nat) : Option (Bool × Option Number) :=
  (w.schedulers.get? s).map fun x => (x.context.isSome, x.maxSteps)

/-- A world with more coroutines, groups, identities and tasks, in which of the rows before only that of one
coroutine changed; no run went on. -/
structure Moved (c : Nat) (w w' : World β σ) : Prop where
  handles : ∀ {i h}, i ≠ c → w.handles.get? i = some h → w'.handles.get? i = some h
  groups : ∀ {i x}, w.groups.get? i = some x → w'.groups.get? i = some x
  extent : ∀ k, w.extent k ≤ w'.extent k
  tasks : ∀ {t}, t < w.tasks.size → w'.tasks.get? t = w.tasks.get? t
  schedulers : ∀ s,
    (w'.schedulers.get? s).map Scheduler.standing = (w.schedulers.get? s).map Scheduler.standing

/-- What corresponding names stand for: a coroutine or a group that is untouched on one side is so on the other,
and they agree. -/
def Paired (body : Names → β → β → Prop) (ρ : Names) (u w : World β σ) :
    NameKind → Nat → Nat → Prop
  | .coroutine, i, j => ∀ {h}, u.handles.get? i = some h → h.Fresh →
      ∃ h', w.handles.get? j = some h' ∧ h'.Fresh ∧ h.Alike body ρ h'
  | .group, i, j => ∀ {x}, u.groups.get? i = some x → x.awaitedBy = none →
      ∃ x', w.groups.get? j = some x' ∧ x'.Fresh ∧ x.Alike ρ x'
  | .identity, _, _ => True

/-- A correspondence leaves out the names of a world that are used up to an upper bound, and relates
no name that another world does not have. -/
structure Avoids (ρ : Names) (u : World β σ) (top : NameKind → Nat) (w : World β σ) : Prop where
  gap : ∀ {k i j}, ρ k i j → i < u.extent k ∨ top k ≤ i
  bound : ∀ {k i j}, ρ k i j → j < w.extent k

/-- Two executions resume coroutines that agree: each changes the row of its coroutine, the rows agree
again, and every new pair of names stands for new things that agree. -/
structure Advances (body : Names → β → β → Prop) (ρ ρ' : Names) (c c' : Nat)
    (u u' w w' : World β σ) : Prop where
  le : ρ ≤ ρ'
  oneToOne : ρ'.OneToOne
  right : w.Moved c' w'
  fresh : ∀ {k i j}, ρ' k i j → ρ k i j ∨ (u.extent k ≤ i ∧ i < u'.extent k) ∧
    (w.extent k ≤ j ∧ j < w'.extent k) ∧ Paired body ρ' u' w' k i j
  row : ∃ x x', u'.handles.get? c = some x ∧ w'.handles.get? c' = some x' ∧
    x.Alike body ρ' x' ∧ x'.status ≠ .created

/-- What a resume leaves behind: its coroutine has started, what is new is admitted, and shared data stays
constant as far as it is read. -/
structure Leaves (admits : β → Prop) (constant : σ → Prop) (c : Nat) (u u' : World β σ) : Prop where
  moved : u.Moved c u'
  shared : constant u'.shared
  admitted : ∀ {i x}, u'.handles.get? i = some x → i = c ∨ u.extent .coroutine ≤ i → admits x.body
  started : ∀ {x}, u'.handles.get? c = some x → x.status ≠ .created

end World

/-- **Bodies are isolated** in the runs of a scheduler: whatever an admitted body does, it leaves other coroutines,
groups and tasks as they were, and what shared data is `constant`; and what it does is determined by its frame,
its input and what is constant, up to names. -/
structure Isolation {β σ : Type} (bodies : Bodies β σ) (s : Nat) (constant : σ → Prop) where
  /-- The bodies that the run may have. -/
  admits : β → Prop
  /-- When two descriptions of bodies agree up to names. -/
  alike : Names → β → β → Prop
  mono : ∀ {ρ ρ' : Names} {b b' : β}, ρ ≤ ρ' → alike ρ b b' → alike ρ' b b'
  leaves : ∀ {n : Nat} {c : CoroutineRef} {input : Input} {step : Step} {u u' : World β σ} {x : Handle β},
    u.isActive s = true → constant u.shared → u.handles.get? c.id = some x → admits x.body →
      World.resume bodies (n + 1) c input u = (.ok step, u') → u.Leaves admits constant c.id u'
  resume : ∀ {ρ : Names} {n m : Nat} {c c' : CoroutineRef} {input input' : Input} {step : Step}
    {u u' w : World β σ} {x x' : Handle β}, ρ.OneToOne → World.Avoids ρ u u'.extent w →
      u.isActive s = true → (∀ t, u.mode t = w.mode t) → constant u.shared → constant w.shared →
      u.handles.get? c.id = some x → w.handles.get? c'.id = some x' → admits x.body →
      x.Alike alike ρ x' → input.Alike Eq ρ input' → n ≤ m →
      World.resume bodies (n + 1) c input u = (.ok step, u') →
      ∃ ρ' step' w', World.resume bodies (m + 1) c' input' w = (.ok step', w') ∧
        step.Alike Eq ρ' step' ∧ World.Advances alike ρ ρ' c.id c'.id u u' w w' ∧ constant w'.shared

variable {β σ : Type} {bodies : Bodies β σ} {s : Nat} {constant : σ → Prop} {iso : Isolation bodies s constant}

theorem Handle.Alike.mono {ρ ρ' : Names} (hle : ρ ≤ ρ') {h h' : Handle β} (hh : h.Alike iso.alike ρ h') :
    h.Alike iso.alike ρ' h' := hh.imp hle (iso.mono hle)

namespace World

variable {u u' u'' w : World β σ}

/-- A world in a run of isolated bodies: all its coroutines are admitted, and shared data is as it is to stay. -/
structure Admitted (iso : Isolation bodies s constant) (u : World β σ) : Prop where
  handles : ∀ {i x}, u.handles.get? i = some x → iso.admits x.body
  shared : constant u.shared
  active : u.isActive s = true

theorem isActive_iff_mode : u.isActive s = true ↔ ∀ mode ∈ u.mode s, mode.1 = true := by
  unfold isActive mode
  cases u.schedulers.get? s <;> simp

theorem isActive_of_mode (h : ∀ t, u.mode t = w.mode t) (s : Nat) : u.isActive s = w.isActive s := by
  rw [Bool.eq_iff_iff, isActive_iff_mode, isActive_iff_mode, h]

theorem Moved.mode {c : Nat} (h : u.Moved c u') (s : Nat) : u'.mode s = u.mode s := by
  have hstanding := congrArg (Option.map fun x : Option RunContext × Option Number => (x.1.isSome, x.2))
    (h.schedulers s)
  rw [Option.map_map, Option.map_map] at hstanding
  exact hstanding

/-- A resume of an admitted coroutine leaves all coroutines admitted. -/
theorem Admitted.resume (h : u.Admitted iso) {c : CoroutineRef} (hl : u.Leaves iso.admits constant c.id u') :
    u'.Admitted iso where
  handles {i x} hx := by
    by_cases hi : i = c.id ∨ u.extent .coroutine ≤ i
    · exact hl.admitted hx hi
    · obtain ⟨hne, hlt⟩ := not_or.mp hi
      obtain ⟨y, hy⟩ := Table.exists_get? (Nat.lt_of_not_le hlt)
      obtain rfl := Option.some.inj ((hl.moved.handles hne hy).symm.trans hx)
      exact h.handles hy
  shared := hl.shared
  active := (isActive_of_mode hl.moved.mode s).trans h.active

end World

end Coroutines
