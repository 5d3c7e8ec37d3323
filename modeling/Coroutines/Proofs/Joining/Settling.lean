import Coroutines.Proofs.Joining.Framed
import Coroutines.Proofs.Joining.Slots

/-!
# How a group settles

A group that is started settles at once if no member is left to wait for, and otherwise in the turn
that ends the last of its members.  Then the task that awaits it has the joined outcomes of the
slots in its inbox, and is back in the queue.
-/

namespace Coroutines

/-- What a coroutine has come to when it ends a resume with a step. -/
def Step.outcome? : Step → Option Outcome
  | .await _ => none
  | .ret v => some (.ok v)
  | .raise r => some (.error r)

theorem Handle.left_of_outcome? {β : Type} {step : Step} {o : Outcome}
    (h : step.outcome? = some o) (y : Handle β) (frame : Frame) :
    (y.left frame step).status.isFinished = true ∧ (y.left frame step).outcome = some o := by
  cases step with
  | await target => cases h
  | _ =>
      cases h
      exact ⟨rfl, rfl⟩

namespace World

variable {β σ : Type} {w w' : World β σ}

@[simp] theorem length_claims (w : World β σ) (cs : List CoroutineRef) :
    (w.claims cs).length = cs.length := by
  induction cs generalizing w with
  | nil => rfl
  | cons c rest ih => simp [claims, ih]

/-! ### Groups with their slots -/

/-- A group that a task awaits, with the tasks of its slots. -/
structure Held (w : World β σ) (g : Nat) (x : Group) (t : Nat) (claims : List (Option Failure))
    (ts : List Nat) : Prop where
  group : w.groups.get? g = some { x with tasks := ts, awaitedBy := some t }
  slots : List.Forall₂ (fun p u => w.Slot u p.1 p.2) (x.handles.zip claims) ts

/-- An input is the joined outcome of the slots of a group. -/
def Result (w : World β σ) (x : Group) (claims : List (Option Failure)) (input : Input) : Prop :=
  ∃ os o, List.Forall₂ (fun p o => w.SlotOutcome p.1 p.2 o) (x.handles.zip claims) os ∧
    Joined x.returnExceptions os o ∧ input = o.input

theorem Result.mono {x : Group} {claims : List (Option Failure)} {input : Input}
    (h : w.Result x claims input) (hs : w.Steady w') : w'.Result x claims input := by
  obtain ⟨os, o, hos, hj, hi⟩ := h
  exact ⟨os, o, hos.imp fun _ _ ho => ho.mono hs, hj, hi⟩

/-- Slots whose tasks have all ended have outcomes. -/
theorem outcomes_of_slots {ps : List (CoroutineRef × Option Failure)} {ts : List Nat}
    (h : List.Forall₂ (fun p u => w.Slot u p.1 p.2) ps ts)
    (hall : ∀ u ∈ ts, (w.taskOutcome? u).isSome = true) :
    ∃ os, List.Forall₂ (fun x o => x.outcome = some o) (ts.filterMap w.tasks.get?) os ∧
      List.Forall₂ (fun p o => w.SlotOutcome p.1 p.2 o) ps os := by
  induction h with
  | nil => exact ⟨[], .nil, .nil⟩
  | @cons p u ps ts hslot _ ih =>
      obtain ⟨os, hts, hps⟩ := ih fun u hu => hall u (List.mem_cons_of_mem _ hu)
      obtain ⟨o, ho⟩ := Option.isSome_iff_exists.mp (hall u List.mem_cons_self)
      obtain ⟨x, hx, hxo⟩ := Option.bind_eq_some_iff.mp ho
      refine ⟨o :: os, ?_, .cons (hslot.outcome ho) hps⟩
      rw [List.filterMap_cons_some hx]
      exact .cons hxo hts

namespace Held

variable {g t : Nat} {x : Group} {claims : List (Option Failure)} {ts : List Nat}

theorem length (h : w.Held g x t claims ts) (hc : claims.length = x.handles.length) :
    ts.length = x.handles.length := by
  rw [← h.slots.length_eq, List.length_zip, hc, Nat.min_self]

/-- A group is quiescent if the tasks of all slots have ended. -/
theorem quiescent_iff (h : w.Held g x t claims ts) (hc : claims.length = x.handles.length)
    {ref : GroupRef} (hg : ref.id = g) :
    w.quiescent ref = true ↔ ∀ u ∈ ts, (w.taskOutcome? u).isSome = true :=
  World.quiescent_iff (hg ▸ h.group) (h.length hc)

/-- A group with its slots stays as long as the tasks of the slots keep chains and outcomes. -/
theorem mono (h : w.Held g x t claims ts)
    (hgroup : ∀ {y}, w.groups.get? g = some y → y.awaitedBy ≠ none → w'.groups.get? g = some y)
    (hslot : ∀ {u c claim}, u ∈ ts → w.Slot u c claim → w'.Slot u c claim) :
    w'.Held g x t claims ts where
  group := hgroup h.group nofun
  slots := by
    have hslots := h.slots
    clear hgroup h
    generalize x.handles.zip claims = ps at hslots
    induction hslots with
    | nil => exact .nil
    | @cons p u ps ts hp _ ih =>
        exact .cons (hslot List.mem_cons_self hp) (ih fun hu => hslot (List.mem_cons_of_mem _ hu))

/-- A group whose members have all ended settles with the joined outcome of its slots, and hands it to the
task that awaits it. -/
theorem closeGroup_eq (h : w.Held g x t claims ts) (hc : claims.length = x.handles.length)
    {ref : GroupRef} (hg : ref.id = g) (hq : w.quiescent ref = true) (s : Nat) :
    ∃ o n, w.Result x claims (Outcome.input o) ∧ w.closeGroup s ref =
      (.ok (), ((({ w with nextIdentity := n }).modifyTask t fun x => { x with inbox := o.input }).emit s
        (.joinEnd (w.taskId t) o.isOk)).enqueue s t) := by
  subst hg
  obtain ⟨os, hos, hslots⟩ := outcomes_of_slots h.slots ((h.quiescent_iff hc rfl).mp hq)
  obtain ⟨values, n, he, hj⟩ := gatherOutcomes_joined x.returnExceptions hos w.nextIdentity
  have hsettle : w.settle ref = (.ok (values.map .list), { w with nextIdentity := n }) := by
    simp only [settle, h.group, he]
    rfl
  have hid : (({ w with nextIdentity := n } : World β σ).modifyTask t fun x =>
      { x with inbox := Outcome.input (values.map .list) }).taskId t = w.taskId t := by
    simp only [taskId, get?_tasks_modifyTask, if_true, Option.map_map]
    rfl
  refine ⟨values.map .list, n, ⟨os, _, hslots, hj, rfl⟩, ?_⟩
  simp only [World.closeGroup, hq, if_true, settleGroup, h.group, Option.bind_some, hsettle, hid]

/-- A group that settles hands the joined outcomes of its slots to the task that awaits it. -/
theorem closeGroup {s : Nat} {ref : GroupRef} {y : Task} (h : w.Held ref.id x t claims ts)
    (hc : claims.length = x.handles.length) (hq : w.quiescent ref = true)
    (hy : w.tasks.get? t = some y) (hs : ∃ ctx, w.context? s = some ctx) :
    ∃ input, w.Result x claims input ∧
      (w.closeGroup s ref).2.tasks.get? t = some { y with inbox := input } ∧
      (w.closeGroup s ref).2.InQueue s t := by
  obtain ⟨o, n, hresult, hres⟩ := h.closeGroup_eq hc rfl hq s
  rw [hres]
  refine ⟨_, hresult, ?_, ?_⟩
  · rw [tasks_enqueue, tasks_emit, get?_tasks_modifyTask, if_pos rfl]
    exact congrArg _ hy
  · obtain ⟨ctx, hctx⟩ := hs
    rw [InQueue, context?_enqueue, if_pos rfl, context?_emit, context?_modifyTask]
    exact ⟨{ ctx with ready := ctx.ready ++ [t] }, congrArg _ hctx, by simp⟩

end Held

/-- Closing a group changes no group, and of the tasks no chain and no outcome. -/
theorem rows_closeGroup (w : World β σ) (s : Nat) (g : GroupRef) :
    (w.closeGroup s g).2.groups = w.groups ∧ ∀ u, ((w.closeGroup s g).2.tasks.get? u).map
      (fun x => (x.chain, x.outcome)) = (w.tasks.get? u).map fun x => (x.chain, x.outcome) := by
  unfold closeGroup
  split
  · unfold settleGroup
    split
    · exact ⟨rfl, fun _ => rfl⟩
    · next t _ =>
        have hsettle : (w.settle g).2.groups = w.groups ∧ (w.settle g).2.tasks = w.tasks := by
          unfold settle
          split <;> exact ⟨rfl, rfl⟩
        split
        · next e =>
            rw [e] at hsettle
            exact ⟨hsettle.1, fun u => by rw [hsettle.2]⟩
        · next outcome w' e =>
            rw [e] at hsettle
            refine ⟨hsettle.1, fun u => ?_⟩
            rw [tasks_enqueue, tasks_emit, get?_tasks_modifyTask, hsettle.2]
            split
            · rw [Option.map_map]
              rfl
            · rfl
  · exact ⟨rfl, fun _ => rfl⟩

@[simp] theorem taskOutcome?_closeGroup (w : World β σ) (s : Nat) (g : GroupRef) (u : Nat) :
    (w.closeGroup s g).2.taskOutcome? u = w.taskOutcome? u := by
  have hrow := congrArg (Option.bind · Prod.snd) ((w.rows_closeGroup s g).2 u)
  simpa [Option.bind_map, Function.comp_def, taskOutcome?] using hrow

/-- A group that has its slots once a group was closed had them before. -/
theorem Held.of_closeGroup {s : Nat} {ref : GroupRef} {g t : Nat} {x : Group}
    {claims : List (Option Failure)} {ts : List Nat}
    (h : (w.closeGroup s ref).2.Held g x t claims ts) :
    w.Held g x t claims ts ∧ ∀ g', w.quiescent g' = (w.closeGroup s ref).2.quiescent g' := by
  obtain ⟨hgroups, hrows⟩ := w.rows_closeGroup s ref
  refine ⟨h.mono (fun hy _ => hgroups ▸ hy) fun {u _ _} _ hslot => hslot.mono (fun {x} hx => ?_)
    (.of_handles (handles_closeGroup ..).symm), fun g' => ?_⟩
  · have hrow := hrows u
    rw [hx, Option.map_some] at hrow
    obtain ⟨y, hy, e⟩ := Option.map_eq_some_iff.mp hrow.symm
    exact ⟨y, hy, (Prod.mk.inj e).1, (Prod.mk.inj e).2⟩
  · simp only [quiescent, hgroups, taskOutcome?_closeGroup]

/-! ### The start of a group -/

/-- A group that is started for a task has its slots; if no slot is left to wait for, it settles at
once. -/
theorem held_startGroup {s t : Nat} {g : GroupRef} {x : Group} {y : Task}
    (hx : w.groups.get? g.id = some x) (hidle : x.tasks = []) (hy : w.tasks.get? t = some y)
    (hs : ∃ ctx, w.context? s = some ctx) :
    ∃ ts, (w.startGroup s t g).2.Held g.id x t (w.claims x.handles) ts ∧
      ∃ input, (w.startGroup s t g).2.tasks.get? t = some { y with inbox := input } ∧
        ((w.startGroup s t g).2.quiescent g = true → (w.startGroup s t g).2.InQueue s t ∧
          (w.startGroup s t g).2.Result x (w.claims x.handles) input) := by
  obtain ⟨ts, hgroups, hslots⟩ := slots_startMembers (w.opening s t g) s g 0 x.handles
  have heq := startGroup_eq w s t g
  rw [hx, Option.map_some, Option.getD_some] at heq
  have hclaimable : ∀ i, (w.opening s t g).claimable i = w.claimable i := fun _ => rfl
  rw [claims_congr hclaimable] at hslots
  let w₁ := (w.opening s t g).startMembers s g 0 x.handles
  have hmembers : Touches (fun _ => False) (fun _ => False) (g.id = ·) (w.opening s t g) w₁ :=
    .startMembers _ s rfl 0 _
  have hheld : w₁.Held g.id x t (w.claims x.handles) ts := by
    refine ⟨?_, hslots⟩
    rw [hgroups, if_pos rfl, get?_groups_opening, if_pos rfl, hx]
    simp [hidle]
  have hy₁ : w₁.tasks.get? t = some y := hmembers.same id id hy
  have hclose : Touches (fun _ => False) (fun _ => True) (fun _ => False) w₁ (w₁.closeGroup s g).2 :=
    .closeGroup _ fun _ _ => .inr trivial
  have hsteady : w₁.Steady (w₁.closeGroup s g).2 := .of_handles (handles_closeGroup ..)
  rw [heq]
  refine ⟨ts, hheld.mono (fun h _ => hclose.groups id h) fun _ h =>
    h.mono (hclose.kept id) hsteady, ?_⟩
  cases hq : w₁.quiescent g with
  | true =>
      have hs₁ := hmembers.active hs
      obtain ⟨input, hr, hrow, hqueue⟩ := hheld.closeGroup (length_claims ..) hq hy₁ hs₁
      exact ⟨input, hrow, fun _ => ⟨hqueue, hr.mono hsteady⟩⟩
  | false =>
      have hsame : (w₁.closeGroup s g).2 = w₁ := by simp [World.closeGroup, hq]
      refine ⟨y.inbox, by rw [hsame, hy₁], fun h => ?_⟩
      rw [hsame, hq] at h
      cases h

/-! ### The end of a member -/

theorem get?_tasks_suspend {s t : Nat} {x : Task} (hx : w.tasks.get? t = some x)
    (target : Target) : ∃ x', (w.suspend s t target).2.tasks.get? t = some x' ∧
      x'.outcome = x.outcome ∧ x.chain <:+ x'.chain := by
  have hrow : (w.modifyTask t fun x => { x with state := .suspended }).tasks.get? t =
      some { x with state := .suspended } := (get?_modifyTask_of_get? hx _ t).trans (if_pos rfl)
  cases target with
  | group g =>
      simp only [World.suspend]
      split
      · exact ⟨_, (get?_modifyTask_of_get? hrow _ t).trans (if_pos rfl), rfl, List.suffix_rfl⟩
      · have hstart : Touches (fun _ => False) (t = ·) (g.id = ·)
            (w.modifyTask t fun x => { x with state := .suspended })
            ((w.modifyTask t fun x => { x with state := .suspended }).startGroup s t g).2 :=
          .startGroup _ (.inr rfl) s rfl
        obtain ⟨x', hx', hc, ho⟩ := hstart.kept id hrow
        exact ⟨x', hx', ho, hc ▸ List.suffix_rfl⟩
  | coroutine c =>
      rcases hcl : (w.modifyTask t fun x => { x with state := .suspended }).claim c
        ((w.modifyTask t fun x => { x with state := .suspended }).taskId t) with ⟨failure, w₂⟩
      have hclaim := Touches.claim (T := fun _ => False) (A := fun _ => False) (G := fun _ => False)
        (w.modifyTask t fun x => { x with state := .suspended }) c
        ((w.modifyTask t fun x => { x with state := .suspended }).taskId t)
      rw [hcl] at hclaim
      obtain ⟨w₃, hw₃, he⟩ := suspend_coroutine (s := s) rfl hcl
      rw [he, tasks_enqueue, tasks_emit, hw₃]
      refine ⟨_, (get?_modifyTask_of_get? (hclaim.same id id hrow) _ t).trans (if_pos rfl), ?_, ?_⟩
      · cases failure <;> rfl
      · cases failure with
        | none => exact List.suffix_cons ..
        | some f => exact List.suffix_rfl

theorem get?_tasks_finish {s t : Nat} {x : Task} (hx : w.tasks.get? t = some x)
    (outcome : Outcome) : ∃ x', (w.finish s t outcome).2.tasks.get? t = some x' ∧
      x'.outcome = some outcome := by
  have hrow := (get?_modifyTask_of_get? hx (·.ended outcome) t).trans (if_pos rfl)
  cases hg : x.group with
  | none =>
      rw [finish_root hx hg]
      exact ⟨_, hrow, rfl⟩
  | some g =>
      rw [finish_member hx hg]
      have hclose : Touches (fun _ => False) (fun _ => True) (fun _ => False)
          ((w.modifyTask t (·.ended outcome)).emit s (.taskEnd x.id x.index outcome.isOk))
          (((w.modifyTask t (·.ended outcome)).emit s
            (.taskEnd x.id x.index outcome.isOk)).closeGroup s g).2 :=
        .closeGroup _ fun _ _ => .inr trivial
      obtain ⟨x', hx', -, ho⟩ := hclose.kept id hrow
      exact ⟨x', hx', ho⟩

/-- A task goes on with the rest of its chain. -/
theorem get?_tasks_popped {t : Nat} {c : CoroutineRef} {rest : List CoroutineRef} {x : Task}
    (hx : w.tasks.get? t = some x) (hc : x.chain = c :: rest) (top : CoroutineRef) :
    ((w.modifyTask t fun x => { x with chain := x.chain.tail }).release top).tasks.get? t =
      some { x with chain := rest } := by
  refine (get?_modifyTask_of_get? hx _ t).trans ?_
  rw [if_pos rfl, hc]
  rfl

theorem get?_tasks_unwind {s t : Nat} {top : CoroutineRef} {rest : List CoroutineRef} {x : Task}
    (hx : w.tasks.get? t = some x) (hc : x.chain = top :: rest) (ho : x.outcome = none)
    (outcome : Outcome) : ∃ x', (w.unwind s t top outcome).2.tasks.get? t = some x' ∧
      (x'.outcome = none ∧ x'.chain = rest ∧ rest ≠ [] ∨ rest = [] ∧ x'.outcome = some outcome) := by
  have hrow := get?_tasks_popped hx hc top
  simp only [World.unwind, hrow, Option.map_some, Option.getD_some]
  cases rest with
  | nil =>
      obtain ⟨x', hx', ho'⟩ := get?_tasks_finish (s := s) hrow outcome
      exact ⟨x', hx', .inr ⟨rfl, ho'⟩⟩
  | cons d rest =>
      exact ⟨_, (get?_modifyTask_of_get? hrow _ t).trans (if_pos rfl),
        .inl ⟨ho, rfl, List.cons_ne_nil d rest⟩⟩

/-- The task of a turn goes on with its whole chain while its coroutine awaits, and otherwise with the
rest of it; it has the outcome of its only coroutine. -/
theorem get?_tasks_absorb {s t : Nat} {top : CoroutineRef} {rest : List CoroutineRef} {x : Task}
    (hx : w.tasks.get? t = some x) (hc : x.chain = top :: rest) (ho : x.outcome = none)
    (step : Step) : ∃ x', (w.absorb s t top step).2.tasks.get? t = some x' ∧
      (x'.outcome = none ∧ x.chain <:+ x'.chain ∨ ∃ o, step.outcome? = some o ∧
        (x'.outcome = none ∧ x'.chain = rest ∧ rest ≠ [] ∨ rest = [] ∧ x'.outcome = some o)) := by
  cases step with
  | await target =>
      obtain ⟨x', hx', ho', hc'⟩ := get?_tasks_suspend (s := s) hx target
      exact ⟨x', hx', .inl ⟨ho'.trans ho, hc'⟩⟩
  | ret v =>
      obtain ⟨x', hx', h⟩ := get?_tasks_unwind (s := s) hx hc ho (.ok v)
      exact ⟨x', hx', .inr ⟨_, rfl, h⟩⟩
  | raise r =>
      obtain ⟨x', hx', h⟩ := get?_tasks_unwind (s := s) hx hc ho (.error r)
      exact ⟨x', hx', .inr ⟨_, rfl, h⟩⟩

/-! ### The last coroutine of a task -/

theorem absorb_of_outcome? {s t : Nat} {top : CoroutineRef} {step : Step} {o : Outcome}
    (h : step.outcome? = some o) : w.absorb s t top step = w.unwind s t top o := by
  cases step with
  | await target => cases h
  | _ =>
      cases h
      rfl

/-- The world in which a task has ended with the last coroutine of its chain, before anybody hears of
it. -/
def ended (w : World β σ) (s t : Nat) (top : CoroutineRef) (x : Task) (o : Outcome) : World β σ :=
  (((w.modifyTask t fun x => { x with chain := x.chain.tail }).release top).modifyTask t
    (·.ended o)).emit s (.taskEnd x.id x.index o.isOk)

/-- The end of a task settles its group, if it was the last member without an outcome. -/
theorem unwind_last {t : Nat} {top c : CoroutineRef} {x : Task} (hx : w.tasks.get? t = some x)
    (hc : x.chain = [c]) (s : Nat) (o : Outcome) : w.unwind s t top o =
    (x.group.elim (.ok (), w.ended s t top x o) fun g => (w.ended s t top x o).closeGroup s g) := by
  have hpop := get?_tasks_popped hx hc top
  simp only [World.unwind, hpop, Option.map_some, Option.getD_some, List.isEmpty_nil, if_true]
  cases hg : x.group with
  | none => exact finish_root (x := { x with chain := [] }) hpop hg
  | some g => exact finish_member (x := { x with chain := [] }) hpop hg

section

variable {s t : Nat} {top : CoroutineRef} {x : Task} {g : GroupRef} {o : Outcome}
  (hx : w.tasks.get? t = some x) (hc : x.chain = [top])

include hx hc

/-- In this world just that task has changed. -/
theorem get?_tasks_ended (s : Nat) (o : Outcome) (u : Nat) : (w.ended s t top x o).tasks.get? u =
    if u = t then some (Task.ended { x with chain := [] } o) else w.tasks.get? u := by
  have hpop := get?_tasks_popped hx hc top
  refine (get?_modifyTask_of_get? hpop _ u).trans ?_
  split
  · rfl
  · next e => exact (get?_modifyTask_of_get? hx _ u).trans (if_neg e)

/-- The turn that ends a member closes the group. -/
theorem absorb_member {step : Step} (hg : x.group = some g) (ho : step.outcome? = some o) :
    w.absorb s t top step = (w.ended s t top x o).closeGroup s g := by
  rw [absorb_of_outcome? ho, unwind_last hx hc, hg]
  rfl

end

end World

end Coroutines
