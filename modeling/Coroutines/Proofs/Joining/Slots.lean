import Coroutines.Proofs.Joining.Touches
import Coroutines.Proofs.Progress.Steady
import Mathlib.Data.List.Forall2

/-!
# The slots of a group

A group has one slot for each member, with the result of the claim of the member's coroutine
(`claims`) and a task (`Slot`).  The outcome of a slot is the one that its coroutine has come to,
or the failure of the claim (`SlotOutcome`), and what a group amounts to is a function of these
outcomes in the order of its members (`Joined`), whenever they came about.
-/

namespace Coroutines

/-- How an outcome appears in the list of a group that returns exceptions. -/
inductive Appears : Outcome → Value → Prop
  | value (v : Value) : Appears (.ok v) v
  | exception (identity : Nat) (r : Record) : Appears (.error r) (.exception identity r)

/-- What the outcomes of the slots amount to, for a group that does not return exceptions and for one
that does. -/
inductive Joined : Bool → List Outcome → Outcome → Prop
  | values (vs : List Value) : Joined false (vs.map .ok) (.ok (.list vs))
  | failure (vs : List Value) (r : Record) (rest : List Outcome) :
    Joined false (vs.map .ok ++ .error r :: rest) (.error r)
  | returned {os : List Outcome} {vs : List Value} (h : List.Forall₂ Appears os vs) :
    Joined true os (.ok (.list vs))

/-- One more value in front. -/
theorem Joined.cons {re : Bool} {os : List Outcome} {values : Except Record (List Value)}
    (h : Joined re os (values.map .list)) (v : Value) :
    Joined re (.ok v :: os) ((values.map (v :: ·)).map .list) := by
  cases values with
  | ok vs =>
      cases h with
      | values => exact .values (v :: vs)
      | returned h => exact .returned (.cons (.value v) h)
  | error r =>
      cases h with
      | failure vs _ rest => exact .failure (v :: vs) r rest

namespace World

variable {β σ : Type} {w w' : World β σ}

/-- The outcomes of tasks are gathered in their order. -/
theorem gatherOutcomes_joined (re : Bool) {tasks : List Task} {os : List Outcome}
    (h : List.Forall₂ (fun x o => x.outcome = some o) tasks os) (n : Nat) :
    ∃ values n', gatherOutcomes re tasks n = (.ok values, n') ∧
      Joined re os (values.map .list) := by
  induction h generalizing n with
  | nil =>
      refine ⟨.ok [], n, rfl, ?_⟩
      cases re with
      | false => exact .values []
      | true => exact .returned .nil
  | @cons x o tasks os ho _ ih =>
      cases o with
      | ok v =>
          obtain ⟨values, n', e, hj⟩ := ih n
          exact ⟨values.map (v :: ·), n', by simp only [gatherOutcomes, ho, e]; rfl, hj.cons v⟩
      | error r =>
          cases re with
          | false => exact ⟨.error r, n, by simp [gatherOutcomes, ho], .failure [] r os⟩
          | true =>
              obtain ⟨values, n', e, hj⟩ := ih (n + 1)
              refine ⟨values.map (.exception n r :: ·), n', ?_, ?_⟩
              · simp only [gatherOutcomes, ho, e, if_true]
                rfl
              · cases values with
                | ok vs =>
                    cases hj with
                    | returned h => exact .returned (.cons (.exception n r) h)
                | error r => cases hj

/-! ### Claims -/

/-- The results of claims of coroutines one after the other. -/
def claims (w : World β σ) : List CoroutineRef → List (Option Failure)
  | [] => []
  | c :: rest => (w.claim c 0).1 :: (w.claim c 0).2.claims rest

/-- Why a coroutine that exists cannot be claimed. -/
def claimable (w : World β σ) (i : Nat) : Option (Option Failure) :=
  (w.handles.get? i).map Handle.claimFailure?

theorem claim_fst (w : World β σ) (c : CoroutineRef) (task : Nat) :
    (w.claim c task).1 = (w.claimable c.id).getD (some .coroutineReuse) := by
  unfold claim claimable
  split
  · next e => rw [e, Option.map_none, Option.getD_none]
  · next h e =>
      rw [e, Option.map_some, Option.getD_some]
      split <;> next e => exact e.symm

/-- A claim that fails does so because the coroutine has finished, or has started or is taken. -/
theorem busy_or_reuse_of_claim {c : CoroutineRef} {task : Nat} {f : Failure}
    (h : (w.claim c task).1 = some f) : f = .coroutineBusy ∨ f = .coroutineReuse := by
  rw [claim_fst, claimable] at h
  cases hx : w.handles.get? c.id with
  | none =>
      rw [hx] at h
      cases h
      exact .inr rfl
  | some x =>
      rw [hx, Option.map_some, Option.getD_some, Handle.claimFailure?] at h
      split at h
      · cases h
        exact .inr rfl
      · split at h
        · cases h
          exact .inl rfl
        · cases h

/-- A coroutine that has been claimed is busy, whichever task it belongs to. -/
theorem claimable_claim (w : World β σ) (c : CoroutineRef) (task : Nat) (i : Nat) :
    (w.claim c task).2.claimable i =
      if c.id = i ∧ w.claimable i = some none then some (some .coroutineBusy)
      else w.claimable i := by
  rcases h : w.claim c task with ⟨- | f, w'⟩
  · obtain ⟨x, hx, hs, ho, rfl⟩ := claim_eq_none h
    have hfree : w.claimable c.id = some none := by
      rw [claimable, hx, Option.map_some, Handle.claimFailure?_eq_none_iff.mpr ⟨hs, ho⟩]
    by_cases e : c.id = i
    · subst e
      rw [if_pos ⟨rfl, hfree⟩]
      simp [claimable, get?_handles_modifyHandle, hx, Handle.claimFailure?, Handle.ownedBy, hs,
        Status.isFinished]
    · rw [if_neg fun h => e h.1]
      simp only [claimable, get?_handles_modifyHandle, if_neg e]
  · obtain rfl := claim_eq_some h
    refine (if_neg ?_).symm
    rintro ⟨rfl, hfree⟩
    have hf := claim_fst w' c task
    rw [h, hfree] at hf
    cases hf

/-- The results of claims depend on which coroutines can be claimed. -/
theorem claims_congr {w w' : World β σ} (h : ∀ i, w'.claimable i = w.claimable i)
    (cs : List CoroutineRef) : w'.claims cs = w.claims cs := by
  induction cs generalizing w w' with
  | nil => rfl
  | cons c rest ih =>
      rw [claims, claims, claim_fst, claim_fst, h]
      refine congrArg _ (ih fun i => ?_)
      rw [claimable_claim, claimable_claim, h]

/-! ### Slots -/

/-- A coroutine has finished, with an outcome. -/
def Recorded (w : World β σ) (c : CoroutineRef) (o : Outcome) : Prop :=
  ∃ h, w.handles.get? c.id = some h ∧ h.status.isFinished = true ∧ h.outcome = some o

/-- The outcome of a slot: the one recorded for its coroutine if the coroutine was claimed, and the
failure of the claim otherwise. -/
def SlotOutcome (w : World β σ) (c : CoroutineRef) : Option Failure → Outcome → Prop
  | none, o => w.Recorded c o
  | some f, o => o = .error (.ofFailure f)

/-- A task has the coroutine of its slot at the bottom of its chain, or the outcome of the slot. -/
def Slot (w : World β σ) (t : Nat) (c : CoroutineRef) (claim : Option Failure) : Prop :=
  ∃ x, w.tasks.get? t = some x ∧
    (claim = none ∧ x.outcome = none ∧ x.chain.getLast? = some c ∨
      ∃ o, x.outcome = some o ∧ w.SlotOutcome c claim o)

theorem Recorded.mono {c : CoroutineRef} {o : Outcome} (h : w.Recorded c o)
    (hs : w.Steady w') : w'.Recorded c o := by
  obtain ⟨x, hx, hf, ho⟩ := h
  have hfixed : x.status.isFixed = true := by
    cases e : x.status <;> simp [e, Status.isFinished, Status.isFixed] at hf ⊢
  obtain ⟨y, hy, e, ho', -⟩ := hs hx hfixed
  exact ⟨y, hy, e ▸ hf, ho'.trans ho⟩

theorem SlotOutcome.mono {c : CoroutineRef} {claim : Option Failure} {o : Outcome}
    (h : w.SlotOutcome c claim o) (hs : w.Steady w') : w'.SlotOutcome c claim o := by
  cases claim with
  | none => exact Recorded.mono h hs
  | some f => exact h

/-- A slot stays as long as its task keeps its chain and its outcome. -/
theorem Slot.mono {t : Nat} {c : CoroutineRef} {claim : Option Failure} (h : w.Slot t c claim)
    (hrow : ∀ {x}, w.tasks.get? t = some x →
      ∃ x', w'.tasks.get? t = some x' ∧ x'.chain = x.chain ∧ x'.outcome = x.outcome)
    (hs : w.Steady w') : w'.Slot t c claim := by
  obtain ⟨x, hx, h⟩ := h
  obtain ⟨x', hx', hc, ho⟩ := hrow hx
  refine ⟨x', hx', ?_⟩
  rcases h with ⟨hf, hn, hl⟩ | ⟨o, hxo, hslot⟩
  · exact .inl ⟨hf, ho.trans hn, by rw [hc, hl]⟩
  · exact .inr ⟨o, ho.trans hxo, hslot.mono hs⟩

/-- The slot of a task that has ended has the outcome of the task. -/
theorem Slot.outcome {t : Nat} {c : CoroutineRef} {claim : Option Failure}
    (h : w.Slot t c claim) {o : Outcome} (ho : w.taskOutcome? t = some o) :
    w.SlotOutcome c claim o := by
  obtain ⟨x, hx, h⟩ := h
  rw [taskOutcome?_of_get? hx] at ho
  rcases h with ⟨-, hn, -⟩ | ⟨o', hxo, hslot⟩
  · rw [ho] at hn
    cases hn
  · rw [ho] at hxo
    cases hxo
    exact hslot

/-! ### Members -/

/-- A new member is in its slot, and its claim is the next one. -/
theorem slot_startMember (w : World β σ) (s : Nat) (g : GroupRef) (index : Nat)
    (c : CoroutineRef) : (w.startMember s g index c).Slot w.tasks.size c (w.claim c 0).1 ∧
      ∀ i, (w.startMember s g index c).claimable i = (w.claim c 0).2.claimable i := by
  obtain ⟨id, w₁, he, hrow, -, hhandles, -, -⟩ := w.addMember_spec s g index c
  have hself := (hrow w.tasks.size).trans (if_pos rfl)
  have hclaimable : ∀ i, w₁.claimable i = w.claimable i := fun i => by
    rw [claimable, hhandles, claimable]
  have hid := taskId_of_get? hself
  rw [claim_fst, ← hclaimable, ← claim_fst w₁ c id]
  rcases hcl : w₁.claim c id with ⟨- | f, w₂⟩
  · have hres : w.startMember s g index c = w₂.enqueue s w.tasks.size := by
      simp only [World.startMember, he, hid, hcl]
    obtain ⟨x, -, -, -, hw₂⟩ := claim_eq_none hcl
    have hrow' : (w.startMember s g index c).tasks.get? w.tasks.size =
        some ⟨id, index, some g, .pending, [c], .start, none⟩ := by
      rw [hres, hw₂]
      exact hself
    refine ⟨⟨_, hrow', .inl ⟨rfl, rfl, rfl⟩⟩, fun i => ?_⟩
    · rw [claimable_claim, ← hclaimable, ← claimable_claim w₁ c id, hcl, hres]
      rfl
  · have hres : w.startMember s g index c = w₂.modifyTask w.tasks.size fun x =>
        { x with chain := [], state := .failed, outcome := some (.error (.ofFailure f)) } := by
      simp only [World.startMember, he, hid, hcl]
    obtain rfl := claim_eq_some hcl
    have hrow' : (w.startMember s g index c).tasks.get? w.tasks.size =
        some ⟨id, index, some g, .failed, [], .start, some (.error (.ofFailure f))⟩ := by
      rw [hres, get?_tasks_modifyTask, if_pos rfl, hself]
      rfl
    refine ⟨⟨_, hrow', .inr ⟨_, rfl, rfl⟩⟩, fun i => ?_⟩
    · rw [claimable_claim, ← hclaimable, ← claimable_claim w₂ c id, hcl, hres]
      rfl

/-- The members of a group are in their slots once they all have tasks. -/
theorem slots_startMembers (w : World β σ) (s : Nat) (g : GroupRef) (index : Nat)
    (cs : List CoroutineRef) : ∃ ts,
      (∀ i, (w.startMembers s g index cs).groups.get? i = if g.id = i then
        (w.groups.get? i).map fun x => { x with tasks := x.tasks ++ ts } else w.groups.get? i) ∧
      List.Forall₂ (fun p t => (w.startMembers s g index cs).Slot t p.1 p.2)
        (cs.zip (w.claims cs)) ts := by
  induction cs generalizing w index with
  | nil => exact ⟨[], fun i => by simp [World.startMembers], .nil⟩
  | cons c rest ih =>
      obtain ⟨hslot, hclaimable⟩ := slot_startMember w s g index c
      obtain ⟨ts, hgroups, hslots⟩ := ih (w.startMember s g index c) (index + 1)
      have htouch := Touches.startMembers (T := fun _ => False) (A := fun _ => False)
        (G := (· = g.id)) (w.startMember s g index c) s rfl (index + 1) rest
      refine ⟨w.tasks.size :: ts, fun i => ?_, ?_⟩
      · refine (hgroups i).trans ?_
        rw [get?_groups_startMember]
        split
        · rw [Option.map_map]
          simp [Function.comp_def]
        · rfl
      · rw [claims_congr hclaimable] at hslots
        exact .cons (hslot.mono (htouch.kept id) (.of_arranged (.startMembers ..))) hslots

end World

end Coroutines
