import Coroutines.Proofs.Exact
import Coroutines.Proofs.Invariants
import Coroutines.Trace.Line

/-!
# Numbers in events

The counts that events tell stay where they are no longer exact, so they are finite, and the limit that a run
exceeds is that of its scheduler.  Where the limits of all schedulers are finite, so are all numbers that
are ever reported (`World.Finite`).
-/

namespace Coroutines

/-- All numbers that the event tells are finite. -/
def Event.Finite (e : Event) : Prop := ∀ p ∈ e.data, ∀ n, p.2 = .number n → n.isFinite = true

/-- What an event tells is a text or a count, but for the limit that a run exceeds. -/
theorem Event.mem_data {e : Event} {p : String × Literal} (h : p ∈ e.data) : (∃ text, p.2 = .text text) ∨
    (∃ k, p.2 = count k) ∨ ∃ limit, e = .budgetExceeded limit ∧ p.2 = .number limit := by
  cases e <;> simp only [data, List.mem_cons, List.not_mem_nil, or_false] at h <;> grind

theorem Event.Finite.of_limit {e : Event} (h : ∀ limit, e = .budgetExceeded limit → limit.isFinite = true) :
    e.Finite := by
  intro p hp n hn
  obtain ⟨text, ht⟩ | ⟨k, hk⟩ | ⟨limit, he, hl⟩ := Event.mem_data hp
  · cases ht.symm.trans hn
  · obtain rfl := Literal.number.inj (hk.symm.trans hn)
    rw [Number.ofNat, Number.ofInt_of_representable (Number.representable_mul_one (Nat.min_le_right ..))]
    rfl
  · obtain rfl := Literal.number.inj (hl.symm.trans hn)
    exact h limit he

namespace World

variable {β σ : Type} {w w' : World β σ} {s t : Nat} {c : CoroutineRef} {g : GroupRef}

/-- The numbers of all events are finite, and so are all limits. -/
structure Finite (w : World β σ) : Prop where
  events : ∀ x ∈ w.trace.toList, x.2.Finite
  limits : ∀ ⦃s x⦄, w.schedulers.get? s = some x → ∀ n ∈ x.maxSteps, n.isFinite = true

theorem Finite.of_eq (h : w.Finite) (ht : w'.trace = w.trace) (hs : w'.schedulers = w.schedulers) :
    w'.Finite := ⟨ht ▸ h.events, hs ▸ h.limits⟩

theorem ambient_finite : Ambient (Finite : World β σ → Prop) := fun _ _ _ hs ht _ h => h.of_eq ht hs

namespace Finite

theorem emit_of_finite (h : w.Finite) (s : Nat) {e : Event} (he : e.Finite) : (w.emit s e).Finite where
  events x hx := by
    simp only [World.emit, Array.toList_push, List.mem_append, List.mem_singleton] at hx
    rcases hx with hx | rfl
    · exact h.events x hx
    · exact he
  limits := h.limits

/-- An event that tells no limit. -/
theorem emit (h : w.Finite) (s : Nat) {e : Event} (he : ∀ n, e ≠ .budgetExceeded n) : (w.emit s e).Finite :=
  h.emit_of_finite s (.of_limit fun n hn => absurd hn (he n))

theorem modifyTask (h : w.Finite) (t : Nat) (f : Task → Task) : (w.modifyTask t f).Finite := h.of_eq rfl rfl

theorem modifyGroup (h : w.Finite) (g : GroupRef) (f : Group → Group) : (w.modifyGroup g f).Finite :=
  h.of_eq rfl rfl

theorem modifyScheduler (h : w.Finite) (s : Nat) {f : Scheduler → Scheduler}
    (hf : ∀ x, (f x).maxSteps = x.maxSteps) : (w.modifyScheduler s f).Finite where
  events := h.events
  limits s' x hx n hn := by
    by_cases hs : s = s'
    · subst hs
      rw [World.modifyScheduler, Table.get?_modify_self] at hx
      obtain ⟨y, hy, rfl⟩ := Option.map_eq_some_iff.mp hx
      exact h.limits hy n (hf y ▸ hn)
    · rw [World.modifyScheduler, Table.get?_modify_of_ne _ _ hs] at hx
      exact h.limits hx n hn

theorem modifyContext (h : w.Finite) (s : Nat) (f : RunContext → RunContext) : (w.modifyContext s f).Finite :=
  h.modifyScheduler s fun _ => rfl

theorem enqueue (h : w.Finite) (s t : Nat) : (w.enqueue s t).Finite := h.modifyContext s _

theorem deliver (h : w.Finite) (s t : Nat) (input : Input) : (w.deliver s t input).Finite :=
  (h.modifyTask t _).enqueue s t

theorem release (h : w.Finite) (c : CoroutineRef) : (w.release c).Finite := h.of_eq rfl rfl

theorem claim (h : w.Finite) (c : CoroutineRef) (task : Nat) : (w.claim c task).2.Finite :=
  Keeping.claim ambient_finite c task h

theorem newTask (h : w.Finite) (s : Nat) (c : CoroutineRef) (index : Nat) (group : Option GroupRef) :
    (w.newTask s c index group).2.Finite :=
  .of_eq (w := w.modifyScheduler s fun x => { x with nextTask := x.nextTask + 1 })
    (h.modifyScheduler s fun _ => rfl) rfl rfl

theorem settleGroup (h : w.Finite) (s : Nat) (g : GroupRef) : (w.settleGroup s g).2.Finite := by
  have hsettle : (w.settle g).2.Finite := by
    unfold settle
    split
    · exact h
    · exact h.of_eq rfl rfl
  unfold World.settleGroup
  split
  · exact h
  · next parent _ =>
      split
      · next e => rwa [e] at hsettle
      · next e =>
          rw [e] at hsettle
          exact ((hsettle.modifyTask parent _).emit s (e := .joinEnd _ _) (by simp)).enqueue s parent

theorem closeGroup (h : w.Finite) (s : Nat) (g : GroupRef) : (w.closeGroup s g).2.Finite := by
  unfold World.closeGroup
  split
  · exact h.settleGroup s g
  · exact h

theorem startMember (h : w.Finite) (s : Nat) (g : GroupRef) (index : Nat) (c : CoroutineRef) :
    (w.startMember s g index c).Finite := by
  have hadd : (w.addMember s g index c).2.Finite :=
    ((h.newTask s c index (some g)).modifyGroup g _).emit s (e := .taskSpawn _ _ _) (by simp)
  have hclaim := hadd.claim c ((w.addMember s g index c).2.taskId (w.addMember s g index c).1)
  unfold World.startMember
  dsimp only
  split
  · next e =>
      rw [e] at hclaim
      exact hclaim.of_eq rfl rfl
  · next e =>
      rw [e] at hclaim
      exact hclaim.enqueue s _

theorem startGroup (h : w.Finite) (s parent : Nat) (g : GroupRef) : (w.startGroup s parent g).2.Finite := by
  have hmembers : ∀ (cs : List CoroutineRef) {w : World β σ} (index : Nat), w.Finite →
      (w.startMembers s g index cs).Finite := by
    intro cs
    induction cs with
    | nil => exact fun _ h => h
    | cons c rest ih => exact fun index h => ih (index + 1) (h.startMember s g index c)
  exact (hmembers _ 0 ((h.modifyGroup g _).emit s (e := .joinStart _ _) (by simp))).closeGroup s g

theorem suspend (h : w.Finite) (s t : Nat) (target : Target) : (w.suspend s t target).2.Finite := by
  have hsuspended : (w.modifyTask t fun x => { x with state := .suspended }).Finite := h.modifyTask t _
  unfold World.suspend
  cases target with
  | group g =>
      dsimp only
      split
      · exact hsuspended.deliver s t _
      · exact hsuspended.startGroup s t g
  | coroutine c =>
      exact (((hsuspended.claim c _).modifyTask t _).emit s (e := .taskSuspend _ _) (by simp)).enqueue s t

theorem finish (h : w.Finite) (s t : Nat) (outcome : Outcome) : (w.finish s t outcome).2.Finite := by
  have hended := h.modifyTask t (·.ended outcome)
  unfold World.finish
  dsimp only
  split
  · exact hended
  · next task _ =>
      have htold := hended.emit s (e := .taskEnd task.id task.index outcome.isOk) (by simp)
      split
      · exact htold
      · exact htold.closeGroup s _

theorem unwind (h : w.Finite) (s t : Nat) (top : CoroutineRef) (outcome : Outcome) :
    (w.unwind s t top outcome).2.Finite := by
  have hreleased : ((w.modifyTask t fun x => { x with chain := x.chain.tail }).release top).Finite :=
    h.of_eq rfl rfl
  unfold World.unwind
  dsimp only
  split
  · exact hreleased.finish s t outcome
  · exact hreleased.deliver s t _

theorem absorb (h : w.Finite) (s t : Nat) (top : CoroutineRef) (step : Step) :
    (w.absorb s t top step).2.Finite := by
  cases step with
  | await target => exact h.suspend s t target
  | ret v => exact h.unwind s t top _
  | raise r => exact h.unwind s t top _

/-- The limit that is reported is that of the scheduler. -/
theorem takeUp (h : w.Finite) (s t : Nat) : (w.takeUp s t).2.Finite := by
  unfold World.takeUp
  split
  · exact h
  · split
    · exact h
    · dsimp only
      generalize hv : w.modifyContext s _ = v
      have hcounted : v.Finite := hv ▸ h.modifyContext s _
      split
      · next limit he =>
          refine hcounted.emit_of_finite s (.of_limit ?_)
          rintro _ ⟨⟩
          unfold exceeded? at he
          split at he
          · next hx =>
              split at he <;> cases he
              exact hcounted.limits hx limit rfl
          · cases he
      · exact hcounted.of_eq rfl rfl

section

variable {bodies : Bodies β σ} {fuel : Nat}

theorem run (hres : ∀ c input, Keeping (Finite : World β σ → Prop) (World.resume bodies fuel c input)) (s : Nat)
    (c : CoroutineRef) : Keeping (Finite : World β σ → Prop) (World.run bodies fuel s c) := by
  have hstart : Keeping (Finite : World β σ → Prop) fun w => w.start s c := by
    intro w hw
    have hclaim := (hw.newTask s c 0 none).claim c ((w.newTask s c 0 none).2.taskId (w.newTask s c 0 none).1)
    unfold World.start
    dsimp only
    split
    · exact hw
    · split
      · next e => rwa [e] at hclaim
      · next e =>
          rw [e] at hclaim
          have hactive : World.Finite (World.activate _ s (w.newTask s c 0 none).1) :=
            hclaim.modifyScheduler s fun _ => rfl
          exact hactive.emit s (e := .runStart c.name) (by simp)
  have hturn : ∀ ⦃w w' : World β σ⦄ ⦃t⦄, w.Finite → w.dequeue s = some (t, w') →
      (w'.step (World.resume bodies fuel) s t).2.Finite := by
    intro w w' t hw hd
    obtain ⟨ctx, rest, -, -, rfl⟩ := dequeue_eq_some hd
    have htake := (hw.modifyContext s fun ctx => { ctx with ready := rest }).takeUp s t
    rw [step_eq]
    rcases hu : World.takeUp _ s t with ⟨e | - | ⟨top, input⟩, w₁⟩ <;> rw [hu] at htake
    · exact htake
    · exact htake
    · exact (hres top input).andThen (fun step w hw => hw.absorb s t top step) htake
  have hconclude : ∀ root, Keeping (Finite : World β σ → Prop) fun w => w.conclude s root c := by
    intro root w hw
    unfold World.conclude
    dsimp only
    split
    · exact hw
    · exact hw.emit s (e := .runEnd _ _) (by simp)
  intro w hw
  have hclosed : ∀ v : World β σ, v.Finite → ((v.release c).deactivate s).Finite := fun v hv =>
    (hv.release c).modifyScheduler s fun _ => rfl
  rw [World.run, runWith_eq]
  have hbegun : (w.start s c).2.Finite := hstart hw
  rcases hs : w.start s c with ⟨e | root, w₁⟩ <;> rw [hs] at hbegun
  · exact hbegun
  · exact hclosed _ ((Keeping.drain hturn fuel).andThen (fun _ => hconclude root) hbegun)

end

end Finite

/-- **The numbers of all events stay finite**, whatever is done. -/
theorem Finite.perform {α : Type} (h : w.Finite) (bodies : Bodies β σ) (fuel : Nat) (action : Action β σ α) :
    (w.perform bodies fuel action).2.Finite := by
  have hres : ∀ c input, Keeping (Finite : World β σ → Prop) (resume bodies fuel c input) :=
    Keeping.resume ambient_finite (fun _ => Finite.run) fuel
  exact Keeping.perform ambient_finite (Finite.run hres) hres action h

end World

end Coroutines
