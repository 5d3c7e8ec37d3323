import Coroutines.Proofs.Tables

/-!
# What a turn touches

A turn of a task changes the row of the task, makes new rows, and hands an input to the task that
awaits the group of the task when it ends the group's last member.  It opens a group that nobody
awaited, and it takes no task out of a queue.  So the rows of the tables fall into those that a
turn may change at will, those whose inbox it may change, and those that it leaves (`Touches`).
-/

namespace Coroutines

namespace World

variable {β σ : Type}

/-- A task is in the ready queue of a scheduler. -/
def InQueue (w : World β σ) (s t : Nat) : Prop := ∃ ctx, w.context? s = some ctx ∧ t ∈ ctx.ready

/-- A world after changes to tasks of `T`, to what tasks of `A` are handed and to groups of `G`. -/
structure Touches (T A G : Nat → Prop) (w w' : World β σ) : Prop where
  same : ∀ {u x}, ¬ T u → ¬ A u → w.tasks.get? u = some x → w'.tasks.get? u = some x
  kept : ∀ {u x}, ¬ T u → w.tasks.get? u = some x →
    ∃ x', w'.tasks.get? u = some x' ∧ x'.chain = x.chain ∧ x'.outcome = x.outcome
  groups : ∀ {g x}, ¬ G g → w.groups.get? g = some x → w'.groups.get? g = some x
  queue : ∀ {s ctx}, w.context? s = some ctx →
    ∃ ctx', w'.context? s = some ctx' ∧ ctx.ready ⊆ ctx'.ready

/-! ### The members of a group that is started -/

theorem get?_groups_startMember (w : World β σ) (s : Nat) (g : GroupRef) (index : Nat)
    (c : CoroutineRef) (i : Nat) : (w.startMember s g index c).groups.get? i = if g.id = i then
      (w.groups.get? i).map fun x => { x with tasks := x.tasks ++ [w.tasks.size] }
      else w.groups.get? i := by
  obtain ⟨id, w', he, -, -, -, hgroups, -⟩ := w.addMember_spec s g index c
  have hclaim : (w'.claim c (w'.taskId w.tasks.size)).2.groups = w'.groups := by
    rcases h : w'.claim c (w'.taskId w.tasks.size) with ⟨- | f, w''⟩
    · obtain ⟨x, -, -, -, rfl⟩ := claim_eq_none h
      rfl
    · rw [claim_eq_some h]
  rw [← hgroups, ← hclaim]
  simp only [startMember, he]
  split <;>
    · next e =>
        rw [e]
        rfl

theorem awaitedBy_startMembers (w : World β σ) (s : Nat) (g : GroupRef) (index : Nat)
    (cs : List CoroutineRef) (i : Nat) :
    ((w.startMembers s g index cs).groups.get? i).bind Group.awaitedBy =
      (w.groups.get? i).bind Group.awaitedBy := by
  induction cs generalizing w index with
  | nil => rfl
  | cons c rest ih =>
      refine (ih ..).trans ?_
      rw [get?_groups_startMember]
      split
      · rw [Option.bind_map]
        rfl
      · rfl

namespace Touches

variable {T A G : Nat → Prop} {t : Nat} {w w' w'' : World β σ}

theorem of_rows (htasks : ∀ {u x}, w.tasks.get? u = some x → w'.tasks.get? u = some x)
    (hgroups : ∀ {g x}, w.groups.get? g = some x → w'.groups.get? g = some x)
    (hqueue : ∀ {s ctx}, w.context? s = some ctx →
      ∃ ctx', w'.context? s = some ctx' ∧ ctx.ready ⊆ ctx'.ready) : Touches T A G w w' where
  same _ _ := htasks
  kept _ hx := ⟨_, htasks hx, rfl, rfl⟩
  groups _ := hgroups
  queue := hqueue

/-- A change of rows that are new. -/
theorem trans_new {f : Task → Task} (h : Touches T A G w w')
    (hf : ∀ {u x}, w.tasks.get? u = some x → (w'.modifyTask t f).tasks.get? u = some x) :
    Touches T A G w (w'.modifyTask t f) :=
  ⟨fun _ _ => hf, fun _ hx => ⟨_, hf hx, rfl, rfl⟩, h.groups, h.queue⟩

/-- Rows and queues stay. -/
theorem of_same (htasks : ∀ {u x}, w.tasks.get? u = some x → w'.tasks.get? u = some x)
    (hgroups : ∀ {g x}, w.groups.get? g = some x → w'.groups.get? g = some x)
    (hctx : ∀ s, w'.context? s = w.context? s) : Touches T A G w w' :=
  .of_rows htasks hgroups fun hc => ⟨_, (hctx _).trans hc, List.Subset.refl _⟩

theorem refl (w : World β σ) : Touches T A G w w := .of_same id id fun _ => rfl

theorem trans (h : Touches T A G w w') (h' : Touches T A G w' w'') : Touches T A G w w'' where
  same ht ha hx := h'.same ht ha (h.same ht ha hx)
  kept ht hx := by
    obtain ⟨y, hy, hc, ho⟩ := h.kept ht hx
    obtain ⟨z, hz, hc', ho'⟩ := h'.kept ht hy
    exact ⟨z, hz, hc'.trans hc, ho'.trans ho⟩
  groups hg hx := h'.groups hg (h.groups hg hx)
  queue hc := by
    obtain ⟨ctx, hc, hsub⟩ := h.queue hc
    obtain ⟨ctx', hc', hsub'⟩ := h'.queue hc
    exact ⟨ctx', hc', List.Subset.trans hsub hsub'⟩

theorem inQueue (h : Touches T A G w w') {s u : Nat} (hu : w.InQueue s u) : w'.InQueue s u := by
  obtain ⟨ctx, hc, hu⟩ := hu
  obtain ⟨ctx', hc', hsub⟩ := h.queue hc
  exact ⟨ctx', hc', hsub hu⟩

theorem active (h : Touches T A G w w') {s : Nat} (hs : ∃ ctx, w.context? s = some ctx) :
    ∃ ctx, w'.context? s = some ctx := by
  obtain ⟨ctx, hc⟩ := hs
  obtain ⟨ctx', hc', -⟩ := h.queue hc
  exact ⟨ctx', hc'⟩

theorem emit (w : World β σ) (s : Nat) (e : Event) : Touches T A G w (w.emit s e) :=
  .of_same id id fun _ => rfl

theorem modifyHandle (w : World β σ) (c : CoroutineRef) (f : Handle β → Handle β) :
    Touches T A G w (w.modifyHandle c f) :=
  .of_same id id fun _ => rfl

theorem claim (w : World β σ) (c : CoroutineRef) (task : Nat) :
    Touches T A G w (w.claim c task).2 := by
  rcases h : w.claim c task with ⟨- | f, w'⟩
  · obtain ⟨x, -, -, -, rfl⟩ := claim_eq_none h
    exact .modifyHandle ..
  · obtain rfl := claim_eq_some h
    exact .refl w'

theorem enqueue (w : World β σ) (s t : Nat) : Touches T A G w (w.enqueue s t) := by
  refine .of_rows id id fun {s' ctx} hc => ?_
  rw [context?_enqueue]
  split
  · exact ⟨_, by rw [hc]; rfl, List.subset_append_left ..⟩
  · exact ⟨ctx, hc, List.Subset.refl _⟩

theorem modifyTask {t : Nat} (w : World β σ) (ht : T t) (f : Task → Task) :
    Touches T A G w (w.modifyTask t f) := by
  have hrow : ∀ {u x}, ¬ T u → w.tasks.get? u = some x →
      (w.modifyTask t f).tasks.get? u = some x := by
    intro u x hu hx
    rw [get?_tasks_modifyTask, if_neg, hx]
    rintro rfl
    exact hu ht
  exact ⟨fun hu _ => hrow hu, fun hu hx => ⟨_, hrow hu hx, rfl, rfl⟩, fun _ => id,
    fun hc => ⟨_, hc, List.Subset.refl _⟩⟩

/-- A task is handed an input. -/
theorem hand {t : Nat} (w : World β σ) (ht : T t ∨ A t) (input : Input) :
    Touches T A G w (w.modifyTask t fun x => { x with inbox := input }) := by
  refine ⟨fun {u x} hu ha hx => ?_, fun {u x} _ hx => ?_, fun _ => id,
    fun hc => ⟨_, hc, List.Subset.refl _⟩⟩
  · rw [get?_tasks_modifyTask, if_neg, hx]
    rintro rfl
    exact ht.elim hu ha
  · refine ⟨if t = u then { x with inbox := input } else x, ?_, ?_, ?_⟩
    · rw [get?_tasks_modifyTask, hx]
      split <;> rfl
    all_goals split <;> rfl

theorem modifyGroup (w : World β σ) {g : GroupRef} (hg : G g.id) (f : Group → Group) :
    Touches T A G w (w.modifyGroup g f) := by
  refine ⟨fun _ _ => id, fun _ hx => ⟨_, hx, rfl, rfl⟩, fun {i x} hi hx => ?_,
    fun hc => ⟨_, hc, List.Subset.refl _⟩⟩
  rw [get?_groups_modifyGroup, if_neg, hx]
  rintro rfl
  exact hi hg

theorem newTask (w : World β σ) (s : Nat) (c : CoroutineRef) (index : Nat)
    (group : Option GroupRef) : Touches T A G w (w.newTask s c index group).2 := by
  exact .of_same (fun hx => Table.get?_push_of_some hx) id fun s' =>
    context?_newTask w s c index group s'

theorem takeUp {t : Nat} (w : World β σ) (ht : T t) (s : Nat) :
    Touches T A G w (w.takeUp s t).2 := by
  have hsteps : Touches T A G w (w.modifyContext s fun ctx => { ctx with steps := ctx.steps + 1 }) := by
    refine .of_rows id id fun {s' ctx} hc => ?_
    rw [context?_modifyContext]
    split
    · exact ⟨{ ctx with steps := ctx.steps + 1 }, by rw [hc]; rfl, List.Subset.refl _⟩
    · exact ⟨ctx, hc, List.Subset.refl _⟩
  simp only [World.takeUp]
  split
  · exact .refl w
  · split
    · exact .refl w
    · split
      · exact hsteps.trans (.emit ..)
      · exact hsteps.trans (.modifyTask _ ht _)

/-! ### Groups -/

/-- A group that settles hands its outcome to the task that awaits it. -/
theorem closeGroup {s : Nat} {g : GroupRef} (w : World β σ)
    (ha : ∀ {x t}, w.groups.get? g.id = some x → x.awaitedBy = some t → T t ∨ A t) :
    Touches T A G w (w.closeGroup s g).2 := by
  unfold World.closeGroup
  split
  · unfold settleGroup
    split
    · exact .refl w
    · next t ht =>
        obtain ⟨x, hx, ht⟩ := Option.bind_eq_some_iff.mp ht
        have hsettle : Touches T A G w (w.settle g).2 := by
          unfold settle
          split
          · exact .refl w
          · exact .of_same id id fun _ => rfl
        split
        · next e =>
            rw [e] at hsettle
            exact hsettle
        · next outcome w' e =>
            rw [e] at hsettle
            exact ((hsettle.trans (.hand _ (ha hx ht) outcome.input)).trans (.emit ..)).trans
              (.enqueue ..)
  · exact .refl w

theorem startMember (w : World β σ) (s : Nat) {g : GroupRef} (hg : G g.id) (index : Nat)
    (c : CoroutineRef) : Touches T A G w (w.startMember s g index c) := by
  have hadd : Touches T A G w (w.addMember s g index c).2 :=
    ((newTask w s c index (some g)).trans (.modifyGroup _ hg _)).trans (.emit ..)
  have hclaim := Touches.claim (T := T) (A := A) (G := G) (w.addMember s g index c).2 c
    ((w.addMember s g index c).2.taskId (w.addMember s g index c).1)
  simp only [World.startMember]
  split
  · next f w' e =>
      obtain rfl := claim_eq_some e
      refine hadd.trans_new fun {u x} hx => ?_
      have hne : (w.addMember s g index c).1 ≠ u := (Table.ne_size_of_get? hx).symm
      rw [get?_tasks_modifyTask, if_neg hne]
      exact Table.get?_push_of_some hx
  · next w' e =>
      rw [e] at hclaim
      exact (hadd.trans hclaim).trans (.enqueue ..)

theorem startMembers (w : World β σ) (s : Nat) {g : GroupRef} (hg : G g.id) (index : Nat)
    (cs : List CoroutineRef) : Touches T A G w (w.startMembers s g index cs) := by
  induction cs generalizing w index with
  | nil => exact .refl w
  | cons c rest ih => exact (Touches.startMember w s hg index c).trans (ih ..)

theorem opening (w : World β σ) (s : Nat) {g : GroupRef} (hg : G g.id) :
    Touches T A G w (w.opening s t g) := (Touches.modifyGroup w hg _).trans (.emit ..)

theorem startGroup (w : World β σ) (ht : T t ∨ A t) (s : Nat) {g : GroupRef} (hg : G g.id) :
    Touches T A G w (w.startGroup s t g).2 := by
  rw [startGroup_eq]
  refine ((Touches.opening w s hg).trans (.startMembers _ s hg 0 _)).trans
    (.closeGroup _ fun {x t'} hx ha => ?_)
  have hawait := awaitedBy_startMembers (w.opening s t g) s g 0
    (((w.groups.get? g.id).map Group.handles).getD []) g.id
  rw [hx, get?_groups_opening, if_pos rfl, Option.bind_some, ha, Option.bind_map] at hawait
  obtain ⟨y, -, hy⟩ := Option.bind_eq_some_iff.mp hawait.symm
  cases hy
  exact ht

/-! ### One turn -/

theorem suspend (w : World β σ) (ht : T t) (s : Nat) (target : Target)
    (hg : ∀ g, target = .group g → w.groupTaken g = false → G g.id) :
    Touches T A G w (w.suspend s t target).2 := by
  have hw := Touches.modifyTask (A := A) (G := G) w ht fun x => { x with state := .suspended }
  cases target with
  | group g =>
      simp only [World.suspend]
      split
      · exact hw.trans ((Touches.modifyTask _ ht _).trans (.enqueue ..))
      · next hn => exact hw.trans (.startGroup _ (.inl ht) s (hg g rfl (Bool.eq_false_iff.mpr hn)))
  | coroutine c =>
      exact (((hw.trans (.claim _ c _)).trans (.modifyTask _ ht _)).trans (.emit ..)).trans
        (.enqueue ..)

/-- `A` has the task that awaits the group of a task. -/
def Hears (w : World β σ) (t : Nat) (A : Nat → Prop) : Prop :=
  ∀ ⦃y ref x u⦄, w.tasks.get? t = some y → y.group = some ref →
    w.groups.get? ref.id = some x → x.awaitedBy = some u → A u

theorem finish (w : World β σ) (ht : T t) (s : Nat) (outcome : Outcome) (ha : Hears w t A) :
    Touches T A G w (w.finish s t outcome).2 := by
  have hw := Touches.modifyTask (A := A) (G := G) w ht (·.ended outcome)
  cases hx : w.tasks.get? t with
  | none =>
      have hx' : (w.modifyTask t (·.ended outcome)).tasks.get? t = none := by
        rw [get?_tasks_modifyTask, if_pos rfl, hx, Option.map_none]
      simp only [World.finish, hx']
      exact hw
  | some x =>
      cases hg : x.group with
      | none =>
          rw [finish_root hx hg]
          exact hw.trans (.emit ..)
      | some g =>
          rw [finish_member hx hg]
          exact (hw.trans (.emit ..)).trans (.closeGroup _ fun hy hu => .inr (ha hx hg hy hu))

theorem unwind (w : World β σ) (ht : T t) (s : Nat) (top : CoroutineRef) (outcome : Outcome)
    (ha : Hears w t A) : Touches T A G w (w.unwind s t top outcome).2 := by
  have hw : Touches T A G w ((w.modifyTask t fun x => { x with chain := x.chain.tail }).release top) :=
    (Touches.modifyTask w ht _).trans (.modifyHandle ..)
  simp only [World.unwind]
  split
  · refine hw.trans (.finish _ ht s outcome fun y ref x u hy hg hx hu => ?_)
    have hy : (w.modifyTask t fun x => { x with chain := x.chain.tail }).tasks.get? t = some y := hy
    rw [get?_tasks_modifyTask, if_pos rfl] at hy
    obtain ⟨z, hz, rfl⟩ := Option.map_eq_some_iff.mp hy
    exact ha hz hg hx hu
  · exact hw.trans ((Touches.modifyTask _ ht _).trans (.enqueue ..))

theorem absorb (w : World β σ) (ht : T t) (s : Nat) (top : CoroutineRef) (step : Step)
    (ha : Hears w t A) (hg : ∀ g, step = .await (.group g) → w.groupTaken g = false → G g.id) :
    Touches T A G w (w.absorb s t top step).2 := by
  cases step with
  | await target => exact .suspend w ht s target fun g e => hg g (by rw [e])
  | ret v => exact .unwind w ht s top (.ok v) ha
  | raise r => exact .unwind w ht s top (.error r) ha

end Touches

end World

end Coroutines
