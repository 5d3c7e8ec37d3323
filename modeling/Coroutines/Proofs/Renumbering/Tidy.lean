import Coroutines.Proofs.Moments
import Coroutines.Proofs.Renumbering.Resumes

/-!
# The world at a moment

At every moment of an execution in a world that was empty in the beginning, queues hold tasks that are
there, and a member of a group has a task that awaits the group (`World.Tidy`).  Such a world is renumbered
by tasks that come after its own.
-/

namespace Coroutines

namespace World

variable {β σ α γ : Type}

/-- A world is some world renumbered, and has at least `n` tasks. -/
def IsRenumbered (r : Renumbering) (n : Nat) (v : World β σ) : Prop :=
  (∃ num w, World.Renumbered r num w v) ∧ n ≤ v.tasks.size

variable {w v : World β σ} {r : Renumbering} {num : Nat → Nat}

theorem IsRenumbered.of_le {n m : Nat} (h : v.IsRenumbered r m) (hn : n ≤ m) : v.IsRenumbered r n :=
  ⟨h.1, hn.trans h.2⟩

namespace Renumbered

theorem corresponds (h : w.Renumbered r num v) {x y : α × World β σ}
    (hc : Corresponds r num w.tasks.size x y) : y.2.IsRenumbered r v.tasks.size := by
  obtain ⟨num', -, hr⟩ := hc.worlds
  refine ⟨⟨num', _, hr⟩, ?_⟩
  rw [h.size, hr.size]
  exact Nat.add_le_add_right hc.size _

/-! ### Moments in renumbered worlds -/

/-- The first request of an action leaves a world renumbered. -/
theorem advance (h : w.Renumbered r num v) {runner : Runner β σ}
    (hrun : ∀ s c, r.Respects (runner.run s c)) (hres : ∀ c input, r.Respects (runner.resume c input))
    {a a' : Action β σ α} {v' : World β σ} (ha : a.advance runner v = some (a', v')) :
    v'.IsRenumbered r v.tasks.size := by
  cases a with
  | done result => cases ha
  | read next =>
      cases ha
      exact ⟨⟨num, w, h⟩, le_rfl⟩
  | modify f next =>
      cases ha
      have hm : ({ w with shared := f w.shared } : World β σ).Renumbered r num
          { v with shared := f v.shared } := { h with shared := congrArg f h.shared }
      exact ⟨⟨num, _, hm⟩, le_rfl⟩
  | identity next =>
      cases ha
      have hm : w.identity.2.Renumbered r num v.identity.2 :=
        { h with identity := congrArg (· + 1) h.identity }
      exact ⟨⟨num, _, hm⟩, le_rfl⟩
  | spawn name body locals next =>
      cases ha
      exact ⟨⟨num, _, (h.spawn name body locals).2⟩, le_rfl⟩
  | joinAll s members re next =>
      simp only [Action.advance] at ha
      split at ha <;> cases ha
      · exact ⟨⟨num, _, (h.newGroup members re).2⟩, le_rfl⟩
      · exact ⟨⟨num, w, h⟩, le_rfl⟩
  | run s c next =>
      simp only [Action.advance] at ha
      split at ha <;> cases ha
      exact h.corresponds (hrun s c h)
  | resume c input next =>
      simp only [Action.advance] at ha
      split at ha <;> cases ha
      exact h.corresponds (hres c input h)
  | claim c task next =>
      cases ha
      exact ⟨⟨num, _, (h.claim c task task).2⟩, (congrArg Table.size (tasks_claim v c task)).ge⟩
  | release c next =>
      cases ha
      exact ⟨⟨num, _, h.release c⟩, le_rfl⟩

/-- A task that is next in the renumbered world is so in the other one. -/
theorem dequeued (h : w.Renumbered r num v) {s t : Nat} {v' : World β σ}
    (hd : v.dequeue s = some (t, v')) : ∃ (u : Nat) (w' : World β σ), w'.Renumbered r num v' ∧
      t = r.row u ∧ u < w'.tasks.size ∧ num u = r.shift s ∧ v'.tasks.size = v.tasks.size := by
  rcases hw : w.dequeue s with - | ⟨u, w'⟩
  · cases (h.dequeue_none hw).symm.trans hd
  · obtain ⟨v₁, hv, hr, hu, hnum⟩ := h.dequeue_some hw
    cases hv.symm.trans hd
    obtain ⟨_, _, -, -, rfl⟩ := dequeue_eq_some hd
    exact ⟨u, w', hr, rfl, hu, hnum, rfl⟩

theorem row_lt (h : w.Renumbered r num v) {t : Nat} (ht : t < w.tasks.size) :
    r.row t < v.tasks.size := by
  rw [h.size, Renumbering.row]
  split <;> omega

/-- So do the turns of a run. -/
theorem afterTurns (h : w.Renumbered r num v)
    {resume : CoroutineRef → Input → World β σ → Except Abort Step × World β σ}
    (hres : ∀ c input, r.Respects (resume c input)) {s n : Nat} {v' : World β σ}
    (hv : World.afterTurns resume s n v = some v') : v'.IsRenumbered r v.tasks.size := by
  induction n generalizing w v num with
  | zero =>
      cases hv
      exact ⟨⟨num, w, h⟩, le_rfl⟩
  | succ n ih =>
      obtain ⟨⟨t, v₁⟩, hd, hv⟩ := Option.bind_eq_some_iff.mp hv
      obtain ⟨u, w₁, h₁, rfl, hu, hnum, hsize⟩ := h.dequeued hd
      have hstep := h₁.step hres hu hnum
      have hle := (h₁.corresponds hstep).2
      obtain ⟨-, -, num₂, -, h₂⟩ := hstep
      rcases hs : v₁.step resume s (r.row u) with ⟨e | ⟨⟩, v₂⟩ <;> simp only [hs] at hv
      · cases hv
      · rw [hs] at h₂ hle
        exact (ih h₂ hv).of_le (hsize ▸ hle)

/-- A run takes a task up that is there, and so are the tasks of what is pending then. -/
theorem takesUp (h : w.Renumbered r num v) {bodies : Bodies β σ} {depth s t : Nat}
    {rest : Rest β σ γ α} {a : Action β σ α} {loop : Rest β σ γ Unit} {top : CoroutineRef}
    {input : Input} {v' : World β σ} (ht : TakesUp bodies depth rest a v loop s t top input v')
    (hfits : rest.Fits v.tasks.size) :
    v.tasks.size ≤ v'.tasks.size ∧ loop.Fits v'.tasks.size ∧ s ∈ loop.schedulers ∧
      ∃ (num' : Nat → Nat) (u : Nat) (w' : World β σ), w'.Renumbered r num' v' ∧ t = r.row u ∧
        u < w'.tasks.size ∧ num' u = r.shift s := by
  obtain ⟨hs, hturns, hd, ht, -⟩ := ht
  next root _ _ c _ v₁ v₂ v₃ =>
  obtain ⟨_, _, _, -, hv, -⟩ | ⟨w₁, v₁', num₁, hw, hv, hlt, -, h₁⟩ := h.start s c
  · cases hv.symm.trans hs
  · cases hv.symm.trans hs
    have hroot := h₁.row_lt hlt
    rw [h.row_size] at hroot ⊢
    obtain ⟨⟨num₂, w₂, h₂⟩, hsize₂⟩ := h₁.afterTurns (r.respects_resume bodies depth) hturns
    obtain ⟨u, w₃, h₃, rfl, hu, hnum, hsize₃⟩ := h₂.dequeued hd
    have htake := h₃.takeUp s u
    have hsize₄ := (h₃.corresponds htake).2
    obtain ⟨-, hsize, num₄, hold, h₄⟩ := htake
    rw [ht] at h₄ hsize₄
    have hle : v₁.tasks.size ≤ v'.tasks.size := hsize₂.trans (hsize₃ ▸ hsize₄)
    exact ⟨hroot.le.trans hle, ⟨hroot.trans_le hle, hfits.mono (hroot.le.trans hle)⟩,
      List.mem_cons_self, num₄, u, _, h₄, rfl, hu.trans_le hsize, (hold u hu).trans hnum⟩

/-- Whatever a host does leaves a world renumbered. -/
theorem history (h : w.Renumbered r num v) {v' : World β σ} (hh : History v v') :
    v'.IsRenumbered r v.tasks.size := by
  induction hh with
  | refl => exact ⟨⟨num, w, h⟩, le_rfl⟩
  | more _ bodies fuel a ih =>
      obtain ⟨⟨num₁, w₁, h₁⟩, hsize⟩ := ih h
      exact (h₁.corresponds (r.respects_perform bodies fuel a h₁)).of_le hsize

/-- **The world at a moment is renumbered as the one before**, and holds the tasks of what is pending. -/
theorem visits (h : w.Renumbered r num v) {bodies : Bodies β σ} {a : Action β σ γ} {fuel : Nat}
    {rest : Rest β σ γ α} {a' : Action β σ α} {depth : Nat} {v' : World β σ}
    (hv : Visits bodies a fuel v rest a' depth v') :
    v'.IsRenumbered r v.tasks.size ∧ rest.Fits v'.tasks.size := by
  induction hv with
  | refl => exact ⟨⟨⟨num, w, h⟩, le_rfl⟩, trivial⟩
  | request _ ha ih =>
      obtain ⟨⟨⟨num₁, w₁, h₁⟩, hsize⟩, hfits⟩ := ih
      have hr := h₁.advance (r.respects_run bodies _) (r.respects_resume bodies _) ha
      exact ⟨hr.of_le hsize, hfits.mono hr.2⟩
  | @turn _ _ _ _ _ _ _ _ top input _ _ _ _ _ ht he ih =>
      obtain ⟨⟨⟨num₁, w₁, h₁⟩, hsize⟩, hfits⟩ := ih
      obtain ⟨hsize₂, hloop, hs, num₂, u, w₂, h₂, rfl, hu, -⟩ := h₁.takesUp ht hfits
      have hr := h₂.corresponds (h₂.enter bodies top input)
      rw [he] at hr
      exact ⟨hr.of_le (hsize.trans hsize₂), (h₂.row_lt hu).trans_le hr.2, hs, hloop.mono hr.2⟩
  | @resume _ _ _ _ c input _ _ _ _ _ he ih =>
      obtain ⟨⟨⟨num₁, w₁, h₁⟩, hsize⟩, hfits⟩ := ih
      have hr := h₁.corresponds (h₁.enter bodies c input)
      rw [he] at hr
      exact ⟨hr.of_le hsize, hfits.mono hr.2⟩

end Renumbered

/-! ### Moments after an empty world -/

theorem get?_schedulers_initial (limits : List (Option Number)) (shared : σ) (s : Nat) :
    (initial limits shared : World β σ).schedulers.get? s = limits[s]?.map (⟨1, none, ·⟩) := by
  simp [initial, Table.get?]

/-- The empty world is the one renumbered in which a scheduler counts its tasks from zero. -/
theorem initial_isRenumbered {limits : List (Option Number)} (shared : σ) {s : Nat}
    (hs : s < limits.length) :
    (initial limits shared : World β σ).IsRenumbered ⟨s, 1, 0, 0, [], []⟩ 0 := by
  let zero : Scheduler → Scheduler := fun x => { x with nextTask := 0 }
  have hrow : ∀ i, ((initial limits shared : World β σ).modifyScheduler s zero).schedulers.get? i =
      limits[i]?.map fun limit => ⟨if i = s then 0 else 1, none, limit⟩ := by
    intro i
    rw [Renumbered.get?_schedulers_modifyScheduler, get?_schedulers_initial, Option.map_map]
    by_cases hi : s = i
    · rw [if_pos hi, if_pos hi.symm]
      rfl
    · rw [if_neg hi, if_neg (Ne.symm hi)]
  have hempty : ∀ t, (initial limits shared : World β σ).tasks.get? t = none := fun _ => rfl
  have hnone : ∀ g, (initial limits shared : World β σ).groups.get? g = none := fun _ => rfl
  refine ⟨⟨fun _ => 0, (initial limits shared).modifyScheduler s zero, ?_⟩, Nat.zero_le _⟩
  exact {
    handles := fun _ => rfl
    groups := fun _ => rfl
    tasks := fun _ => rfl
    first := Nat.zero_le _
    size := rfl
    schedulers := fun i => by
      rw [hrow, get?_schedulers_initial, Option.map_map]
      refine congrArg (fun f => Option.map f _) (funext fun limit => ?_)
      simp only [Function.comp_apply, Renumbering.schedule, Renumbering.shift]
      split <;> rfl
    exists_scheduler := ⟨_, by rw [hrow, List.getElem?_eq_getElem hs]; rfl⟩
    shared := rfl
    identity := rfl
    trace := ⟨[], rfl, rfl⟩
    ready := fun i ctx hc => by
      rw [context?, hrow] at hc
      cases h : limits[i]? <;> rw [h] at hc <;> cases hc
    members := fun g y hy => by cases (hnone g).symm.trans hy
    grouped := fun t x _ hx => by cases (hempty t).symm.trans hx }

theorem Moment.isRenumbered {limits : List (Option Number)} {shared : σ} {bodies : Bodies β σ}
    {rest : Rest β σ γ α} {a : Action β σ α} {depth : Nat}
    (h : Moment limits shared bodies rest a depth v) {s : Nat} (hs : s < limits.length) :
    v.IsRenumbered ⟨s, 1, 0, 0, [], []⟩ 0 ∧ rest.Fits v.tasks.size := by
  obtain ⟨a₀, fuel, w₀, hh, hv⟩ := h
  obtain ⟨⟨_, _, hr⟩, -⟩ := initial_isRenumbered shared hs
  obtain ⟨⟨_, _, hr⟩, -⟩ := hr.history hh
  exact ⟨(hr.visits hv).1.of_le (Nat.zero_le _), (hr.visits hv).2⟩

/-- Runs and groups hold tasks that are there, and the group of a task is awaited by a task. -/
structure Tidy (w : World β σ) : Prop where
  ready : ∀ ⦃s ctx⦄, w.context? s = some ctx → ∀ t ∈ ctx.root :: ctx.ready, t < w.tasks.size
  members : ∀ ⦃g y⦄, w.groups.get? g = some y → ∀ t, t ∈ y.tasks ∨ y.awaitedBy = some t →
    t < w.tasks.size
  grouped : ∀ ⦃t x g⦄, w.tasks.get? t = some x → x.group = some g → ∃ y p,
    w.groups.get? g.id = some y ∧ y.awaitedBy = some p ∧ p < w.tasks.size

theorem Renumbered.tidy {s k : Nat} {past past' : List (Nat × Event)}
    (h : w.Renumbered ⟨s, k, 0, 0, past, past'⟩ num v) : v.Tidy := by
  have hrow : Renumbering.row ⟨s, k, 0, 0, past, past'⟩ = id := funext fun t => if_neg (Nat.not_lt_zero t)
  have hsize : v.tasks.size = w.tasks.size := h.size
  have hgroup : ∀ y, Renumbering.group ⟨s, k, 0, 0, past, past'⟩ y = y := fun y => by
    simp [Renumbering.group, hrow]
  have hcontext : ∀ y, Renumbering.context ⟨s, k, 0, 0, past, past'⟩ y = y := fun y => by
    simp [Renumbering.context, hrow]
  constructor
  · intro i ctx hc t ht
    rw [h.context?_eq, Option.map_eq_some_iff] at hc
    obtain ⟨ctx', hc', rfl⟩ := hc
    rw [hcontext] at ht
    exact hsize ▸ (h.ready hc' t ht).1
  · intro g y hy t ht
    rw [h.groups, Option.map_eq_some_iff] at hy
    obtain ⟨y', hy', rfl⟩ := hy
    rw [hgroup] at ht
    exact hsize ▸ h.members hy' t ht
  · intro t x g hx hg
    have he := h.tasks t
    rw [hrow, id, hx] at he
    obtain ⟨x', hx', rfl⟩ := Option.map_eq_some_iff.mp he.symm
    obtain ⟨y, p, hy, ha, hp, -⟩ := h.grouped hx' hg
    exact ⟨_, p, by rw [h.groups, hy]; rfl, (congrArg Group.awaitedBy (hgroup y)).trans ha, hsize ▸ hp⟩

/-- **At every moment runs and groups hold tasks that are there**, and tasks are counted from one. -/
theorem Moment.tidy {limits : List (Option Number)} {shared : σ} {bodies : Bodies β σ}
    {rest : Rest β σ γ α} {a : Action β σ α} {depth : Nat}
    (h : Moment limits shared bodies rest a depth w) {s : Nat} (hs : s < limits.length) :
    w.Tidy ∧ ∃ x k, w.schedulers.get? s = some x ∧ x.nextTask = k + 1 := by
  obtain ⟨⟨⟨num, u, hr⟩, -⟩, -⟩ := h.isRenumbered hs
  obtain ⟨x, hx⟩ := hr.exists_scheduler
  refine ⟨hr.tidy, _, x.nextTask, by rw [hr.schedulers, hx]; rfl, ?_⟩
  simp [Renumbering.schedule, Renumbering.shift]

/-- A tidy world is renumbered by rows that come after its tasks, by counting more tasks of a scheduler
that is idle, and by another trace. -/
theorem Tidy.renumbered (h : w.Tidy) (hfirst : r.first = w.tasks.size)
    (hidle : r.ids = 0 ∨ w.context? r.scheduler = none) (hexists : ∃ x, w.schedulers.get? r.scheduler = some x)
    (hhandles : v.handles = w.handles) (hgroups : v.groups = w.groups)
    (htasks : ∀ t < w.tasks.size, v.tasks.get? t = w.tasks.get? t)
    (hsize : v.tasks.size = w.tasks.size + r.rows)
    (hschedulers : ∀ i, v.schedulers.get? i = (w.schedulers.get? i).map fun x =>
      { x with nextTask := x.nextTask + r.shift i })
    (hshared : v.shared = w.shared) (hidentity : v.nextIdentity = w.nextIdentity)
    (hpast : w.trace.toList = r.past) (hpast' : v.trace.toList = r.past') :
    w.Renumbered r (fun _ => 0) v := by
  -- rows that the tables of a tidy world name stay, and a run goes on under its numbers
  have hrow : ∀ {t}, t < w.tasks.size → r.row t = t := fun ht => if_pos (hfirst ▸ ht)
  have hnum : ∀ {i ctx}, w.context? i = some ctx → r.shift i = 0 := by
    intro i ctx hc
    rw [Renumbering.shift]
    split
    · next e =>
        rcases hidle with hids | hnone
        · exact hids
        · cases hnone.symm.trans (e ▸ hc)
    · rfl
  have hrows : ∀ ts : List Nat, (∀ t ∈ ts, t < w.tasks.size) → ts.map r.row = ts := fun ts ht =>
    (List.map_congr_left fun t hmem => hrow (ht t hmem)).trans ts.map_id
  exact {
    handles := fun _ => by rw [hhandles]
    groups := fun g => by
      rw [hgroups]
      cases hy : w.groups.get? g with
      | none => rfl
      | some y =>
          have htasks := hrows y.tasks fun t ht => h.members hy t (.inl ht)
          have hawait : y.awaitedBy.map r.row = y.awaitedBy := by
            cases hp : y.awaitedBy with
            | none => rfl
            | some p => exact congrArg some (hrow (h.members hy p (.inr hp)))
          simp only [Option.map_some, Renumbering.group, htasks, hawait]
    tasks := fun t => by
      by_cases ht : t < w.tasks.size
      · rw [hrow ht, htasks t ht]
        cases w.tasks.get? t <;> rfl
      · have hle := Nat.le_of_not_lt ht
        rw [r.row_of_le (hfirst ▸ hle), Table.get?_eq_none_iff.mpr hle,
          Table.get?_eq_none_iff.mpr (by omega)]
        rfl
    first := hfirst.le
    size := hsize
    schedulers := fun i => by
      rw [hschedulers]
      cases hx : w.schedulers.get? i with
      | none => rfl
      | some x =>
          have hcontext : x.context.map r.context = x.context := by
            cases hc : x.context with
            | none => rfl
            | some ctx =>
                have hmem := h.ready (show w.context? i = some ctx by rw [context?, hx]; exact hc)
                have hready := hrows ctx.ready fun t ht => hmem t (List.mem_cons_of_mem _ ht)
                have hroot := hrow (hmem ctx.root List.mem_cons_self)
                simp only [Option.map_some, Renumbering.context, hready, hroot]
          simp only [Option.map_some, Renumbering.schedule, hcontext]
    exists_scheduler := hexists
    shared := hshared
    identity := hidentity
    trace := ⟨[], by rw [hpast, List.append_nil], by rw [hpast', List.map_nil, List.append_nil]⟩
    ready := fun i ctx hc t ht => ⟨h.ready hc t ht, (hnum hc).symm⟩
    members := h.members
    grouped := fun t x g hx hg => by
      obtain ⟨y, p, hy, ha, hp⟩ := h.grouped hx hg
      exact ⟨y, p, hy, ha, hp, rfl⟩ }

end World

end Coroutines
