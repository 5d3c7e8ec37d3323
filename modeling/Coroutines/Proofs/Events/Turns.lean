import Coroutines.Proofs.Events.Reports
import Coroutines.Proofs.Tracebacks.Aftermath

/-!
# What a turn reports

A turn counts one resume, and while its coroutine is resumed nothing is reported for the scheduler of the
run.  Then the task goes on, which is reported if it has awaited a coroutine; or it ends; or it opens a
group, whose members get the next numbers (`World.Enlisted`).  If this leaves a group without a member to
wait for, the end of the join is reported, with the result of the group.
-/

namespace Coroutines

namespace World

variable {β σ : Type} {w w' : World β σ} {s t : Nat}

/-! ### The members of a group that is started -/

/-- A new member has the next number, and an outcome if its coroutine was refused. -/
theorem row_startMember (w : World β σ) (s : Nat) (g : GroupRef) (index : Nat) (c : CoroutineRef) :
    (w.startMember s g index c).tasks.size = w.tasks.size + 1 ∧
      ∃ x, (w.startMember s g index c).tasks.get? w.tasks.size = some x ∧
        x.id = (w.number? s).getD 0 ∧ x.outcome.isSome = (w.claim c 0).1.isSome := by
  obtain ⟨id, w₁, he, hrow, hsize, hhandles, -, -⟩ := w.addMember_spec s g index c
  have hself := (hrow w.tasks.size).trans (if_pos rfl)
  have hid : id = (w.number? s).getD 0 := by
    have hadded : (w.addMember s g index c).2.taskId w.tasks.size = (w.number? s).getD 0 :=
      taskId_newTask w c index (some g)
    rwa [he, taskId_of_get? hself] at hadded
  have hclaim : (w₁.claim c (w₁.taskId w.tasks.size)).1 = (w.claim c 0).1 := by
    rw [claim_fst, claim_fst, claimable, hhandles, claimable]
  have htasks := tasks_claim w₁ c (w₁.taskId w.tasks.size)
  rcases hcl : w₁.claim c (w₁.taskId w.tasks.size) with ⟨- | f, w₂⟩ <;> rw [hcl] at hclaim htasks
  · have hres : w.startMember s g index c = w₂.enqueue s w.tasks.size := by
      simp only [World.startMember, he, hcl]
    rw [hres, tasks_enqueue, htasks]
    exact ⟨hsize, _, hself, hid, congrArg Option.isSome hclaim⟩
  · have hres : w.startMember s g index c = w₂.modifyTask w.tasks.size fun x =>
        { x with chain := [], state := .failed, outcome := some (.error (.ofFailure f)) } := by
      simp only [World.startMember, he, hcl]
    have hrow₂ : w₂.tasks.get? w.tasks.size = _ := htasks ▸ hself
    rw [hres, size_tasks_modifyTask, htasks]
    exact ⟨hsize, _, (get?_modifyTask_of_get? hrow₂ _ _).trans (if_pos rfl), hid,
      congrArg Option.isSome hclaim⟩

/-- The members of a group get rows and numbers in their order. -/
theorem rows_startMembers (w : World β σ) (s : Nat) (g : GroupRef) (index : Nat) (cs : List CoroutineRef)
    {k : Nat} (hk : w.number? s = some k) :
    (w.startMembers s g index cs).tasks.size = w.tasks.size + cs.length ∧
      (∀ i, (w.startMembers s g index cs).groups.get? i = if g.id = i then (w.groups.get? i).map fun x =>
        { x with tasks := x.tasks ++ List.range' w.tasks.size cs.length } else w.groups.get? i) ∧
      ∀ {j claim}, (w.claims cs)[j]? = some claim →
        ∃ x, (w.startMembers s g index cs).tasks.get? (w.tasks.size + j) = some x ∧ x.id = k + j ∧
          x.outcome.isSome = claim.isSome := by
  induction cs generalizing w index k with
  | nil => exact ⟨rfl, fun i => by simp [World.startMembers], nofun⟩
  | cons c rest ih =>
      obtain ⟨hsize, x, hx, hid, hout⟩ := row_startMember w s g index c
      have hnext : (w.startMember s g index c).number? s = some (k + 1) := by
        rw [(Reports.startMember w s g index c).self.2, hk]
        rfl
      obtain ⟨hsizes, hgroups, hrows⟩ := ih (w.startMember s g index c) (index + 1) hnext
      refine ⟨hsizes.trans (by rw [hsize, List.length_cons]; omega), fun i => ?_, fun {j claim} hj => ?_⟩
      · refine (hgroups i).trans ?_
        rw [get?_groups_startMember, hsize]
        split
        · rw [Option.map_map]
          simp [Function.comp_def, List.range'_succ]
        · rfl
      · cases j with
        | zero =>
            have hrest := Touches.startMembers (T := fun _ => False) (A := fun _ => False)
              (G := (· = g.id)) (w.startMember s g index c) s rfl (index + 1) rest
            cases hj
            exact ⟨x, hrest.same id id hx, by rw [hid, hk]; rfl, hout⟩
        | succ j =>
            rw [claims, List.getElem?_cons_succ, ← claims_congr (slot_startMember w s g index c).2] at hj
            obtain ⟨z, hz, hid, hout⟩ := hrows hj
            rw [hsize, Nat.add_right_comm] at hz
            exact ⟨z, hz, by omega, hout⟩

/-- A group was opened for a task, with some results of claims, and its members have new tasks, numbered
from `k` on. -/
structure Enlisted (s t : Nat) (g : GroupRef) (x : Group) (k : Nat) (w w' : World β σ) : Prop where
  reports : Reports s (.joinStart (w.taskId t) x.handles.length :: spawns k (x.handles.map CoroutineRef.name))
    x.handles.length w w'
  held : w'.Held g.id x t (w.claims x.handles) (List.range' w.tasks.size x.handles.length)
  size : w'.tasks.size = w.tasks.size + x.handles.length
  rows : ∀ {j claim}, (w.claims x.handles)[j]? = some claim →
    ∃ z, w'.tasks.get? (w.tasks.size + j) = some z ∧ z.id = k + j ∧ z.outcome.isSome = claim.isSome
  touches : Touches (· = t) (fun _ => False) (g.id = ·) w w'

theorem enlisted_startMembers {g : GroupRef} {x : Group} {k : Nat} (hx : w.groups.get? g.id = some x)
    (hidle : x.tasks = []) (hk : w.number? s = some k) (t : Nat) :
    Enlisted s t g x k w ((w.opening s t g).startMembers s g 0 x.handles) := by
  have hopening := Reports.opening w s t g
  have hnumber : (w.opening s t g).number? s = some k := by
    rw [hopening.self.2, hk]
    rfl
  obtain ⟨hsize, hgroups, hrows⟩ := rows_startMembers (w.opening s t g) s g 0 x.handles hnumber
  obtain ⟨ts, hgroups', hslots⟩ := slots_startMembers (w.opening s t g) s g 0 x.handles
  obtain ⟨es, hreports, hes⟩ := Reports.enlist w s t g x.handles
  have hclaimable : ∀ i, (w.opening s t g).claimable i = w.claimable i := fun _ => rfl
  have hopened : (w.opening s t g).groups.get? g.id = some { x with awaitedBy := some t } := by
    rw [get?_groups_opening, if_pos rfl, hx]
    rfl
  have hgroup := hgroups g.id
  have hgroup' := hgroups' g.id
  rw [if_pos rfl, hopened, Option.map_some, hidle, List.nil_append] at hgroup hgroup'
  have hts : List.range' (w.opening s t g).tasks.size x.handles.length = ts :=
    congrArg Group.tasks (Option.some.inj (hgroup.symm.trans hgroup'))
  have hlength : w.groupSize g = x.handles.length := by
    rw [groupSize, hx]
    rfl
  rw [claims_congr hclaimable] at hslots hrows
  rw [hes k hk, hlength] at hreports
  refine ⟨hreports, ⟨hgroup, ?_⟩, hsize, hrows, ?_⟩
  · exact hts ▸ hslots
  · exact (Touches.opening w s rfl).trans (.startMembers _ s rfl 0 _)

/-- The task that awaits the group may have been marked before. -/
theorem Enlisted.of_modifyTask {g : GroupRef} {x : Group} {k : Nat} {f : Task → Task}
    (h : Enlisted s t g x k (w.modifyTask t f) w') (hf : ∀ z, (f z).id = z.id) :
    Enlisted s t g x k w w' := by
  have hclaimable : ∀ i, (w.modifyTask t f).claimable i = w.claimable i := fun _ => rfl
  obtain ⟨hreports, hheld, hsize, hrows, htouches⟩ := h
  rw [claims_congr hclaimable, size_tasks_modifyTask] at hheld
  rw [size_tasks_modifyTask] at hsize
  simp only [claims_congr hclaimable, size_tasks_modifyTask] at hrows
  rw [taskId_modifyTask w t hf] at hreports
  exact ⟨((Reports.modifyTask w hf s).trans hreports).congr rfl (Nat.zero_add _).symm, hheld, hsize, hrows,
    (Touches.modifyTask (T := (· = t)) w rfl f).trans htouches⟩

/-! ### Groups that settle -/

/-- A group that settles reports the end of the join, and hands its result to the task that awaits it. -/
theorem Held.reports_closeGroup {g : Nat} {x : Group} {claims : List (Option Failure)} {ts : List Nat}
    {ref : GroupRef} {y : Task} (h : w.Held g x t claims ts) (hc : claims.length = x.handles.length)
    (hg : ref.id = g) (hq : w.quiescent ref = true) (hy : w.tasks.get? t = some y)
    (hs : ∃ ctx, w.context? s = some ctx) : ∃ o, w.Result x claims (Outcome.input o) ∧
      Reports s [.joinEnd (w.taskId t) o.isOk] 0 w (w.closeGroup s ref).2 ∧
      (w.closeGroup s ref).2.tasks.get? t = some { y with inbox := o.input } ∧
      (w.closeGroup s ref).2.InQueue s t := by
  obtain ⟨o, n, hresult, he⟩ := h.closeGroup_eq hc hg hq s
  have hsame : Reports s [] 0 w { w with nextIdentity := n } :=
    .of_eq (by rfl) (by rfl) (by rfl) s
  rw [he]
  refine ⟨o, hresult, ((hsame.trans (.modifyTask _ (by exact fun _ => rfl) s)).trans (.emit ..)).trans
    (.enqueue ..), ?_, inQueue_enqueue hs t⟩
  rw [tasks_enqueue, tasks_emit, get?_tasks_modifyTask, if_pos rfl]
  exact congrArg _ hy

/-- Closing a group leaves the rows of the tasks that do not await it. -/
theorem get?_tasks_closeGroup {g : GroupRef} {x : Group} {u : Nat} {y : Task}
    (hx : w.groups.get? g.id = some x) (ha : x.awaitedBy = some t) (hu : u ≠ t)
    (hy : w.tasks.get? u = some y) (s : Nat) : (w.closeGroup s g).2.tasks.get? u = some y := by
  have hclose : Touches (fun _ => False) (· = t) (fun _ => False) w (w.closeGroup s g).2 :=
    .closeGroup _ fun hx' ha' => .inr (by
      cases hx.symm.trans hx'
      exact Option.some.inj (ha'.symm.trans ha))
  exact hclose.same id hu hy

/-! ### One turn -/

/-- A task that goes on with the rest of its chain reports nothing. -/
theorem Reports.unwind_rest {x : Task} {c d : CoroutineRef} {rest : List CoroutineRef}
    (hx : w.tasks.get? t = some x) (hc : x.chain = c :: d :: rest) (s : Nat) (top : CoroutineRef)
    (o : Outcome) : Reports s [] 0 w (w.unwind s t top o).2 := by
  have hrow := get?_tasks_popped hx hc top
  simp only [World.unwind, hrow, Option.map_some, Option.getD_some, List.isEmpty_cons, Bool.false_eq_true,
    if_false]
  exact ((Reports.modifyTask w (f := fun x => { x with chain := x.chain.tail }) (fun _ => rfl) s).trans
    (.modifyHandle ..)).trans (.deliver ..)

theorem reports_ended (w : World β σ) (s t : Nat) (top : CoroutineRef) (x : Task) (o : Outcome) :
    Reports s [.taskEnd x.id x.index o.isOk] 0 w (w.ended s t top x o) :=
  (((Reports.modifyTask w (f := fun x => { x with chain := x.chain.tail }) (fun _ => rfl) s).trans
    (.modifyHandle ..)).trans (.modifyTask _ (f := (·.ended o)) (fun _ => rfl) s)).trans (.emit ..)

namespace Turn

variable {bodies : Bodies β σ} {depth root : Nat} {l : Standing} {base : Nat → Start} {x : Task}
  {top : CoroutineRef} {frame : Frame} {step : Step} {v : World β σ}
  (h : Turn bodies depth s t l base w x top frame step v w')

include h

theorem eq_absorb : w' = ((v.modifyHandle top (·.left frame step)).absorb s t top step).2 := by
  rw [h.absorbed]

/-- A turn counts one resume, and its coroutine reports nothing for the scheduler of the run. -/
theorem counts : (∃ n limit, w.gauge s = some (some n, limit) ∧
      w'.gauge s = some (some (n + 1), limit)) ∧
    (v.modifyHandle top (·.left frame step)).ledger s = w.ledger s := by
  obtain ⟨w₁, w₂, hd, ht, hr⟩ := h.takes
  obtain ⟨ctx, _, hctx, -, hw₁⟩ := dequeue_eq_some hd
  obtain ⟨rest, hc⟩ := h.chain
  obtain ⟨limit, hgauge⟩ : ∃ limit, w.gauge s = some (some ctx.steps, limit) := by
    obtain ⟨z, hz, hzc⟩ := Option.bind_eq_some_iff.mp hctx
    exact ⟨z.maxSteps, by simp [gauge, hz, hzc]⟩
  have hrow : w₁.tasks.get? t = some x := by
    rw [hw₁, tasks_modifyContext]
    exact h.row
  have hgauge₂ : w₂.gauge s = some (some (ctx.steps + 1), limit) := by
    rcases takeUp_cases (s := s) hrow hc with ⟨_, e⟩ | e
    · cases ht.symm.trans e
    · cases ht.symm.trans e
      exact (gauge_counted w₁ s).trans (by rw [gauge_dequeue s hd, hgauge]; rfl)
  have hledger₂ : w₂.ledger s = w.ledger s := by
    obtain ⟨es, hreports, hes⟩ := Reports.takeUp w₁ s t
    rw [ht] at hreports hes
    obtain rfl := hes _ rfl
    exact hreports.ledger_of_nothing.trans (Reports.dequeue hd s).ledger_of_nothing
  have hkeep : Keeping (Underway s (ctx.steps + 1) limit (w.ledger s))
      (World.resume bodies depth top x.inbox) := keeping_underway ..
  obtain ⟨hgauge₃, hledger₃⟩ := hkeep ⟨hgauge₂, hledger₂⟩
  rw [hr] at hgauge₃ hledger₃
  exact ⟨⟨_, _, hgauge, by rw [h.eq_absorb, gauge_absorb]; exact hgauge₃⟩, hledger₃⟩

/-- What is reported in a turn is reported by the scheduler of the run after its coroutine is resumed. -/
theorem told {es : List Event} {n : Nat}
    (hreports : Reports s es n (v.modifyHandle top (·.left frame step)) w') :
    w'.events s = w.events s ++ es ∧ w'.number? s = (w.number? s).map (· + n) := by
  obtain ⟨-, hledger⟩ := h.counts
  have hevents : (v.modifyHandle top (·.left frame step)).events s = w.events s := congrArg Prod.fst hledger
  have hnumber : (v.modifyHandle top (·.left frame step)).number? s = w.number? s := congrArg Prod.snd hledger
  rw [← hevents, ← hnumber]
  exact hreports.self

/-- A task that goes on reports at most that it awaits a coroutine. -/
theorem reports_goesOn (hends : ∀ o, step.outcome? = some o → x.chain ≠ [top])
    (hgroup : ∀ g, step = .await (.group g) → v.groupTaken g = true) :
    ∃ es, Reports s es 0 (v.modifyHandle top (·.left frame step)) w' ∧
      (es = [] ∨ ∃ name, es = [.taskSuspend x.id name]) := by
  have hmine : (v.modifyHandle top (·.left frame step)).tasks.get? t = some _ := h.mine
  have hrest : ∀ o, step.outcome? = some o → Reports s [] 0 (v.modifyHandle top (·.left frame step))
      ((v.modifyHandle top (·.left frame step)).unwind s t top o).2 := by
    intro o ho
    obtain ⟨rest, hc⟩ := h.chain
    cases rest with
    | nil => exact absurd hc (hends o ho)
    | cons d rest => exact .unwind_rest hmine hc s top o
  rw [h.eq_absorb]
  cases step with
  | ret value => exact ⟨[], hrest _ rfl, .inl rfl⟩
  | raise r => exact ⟨[], hrest _ rfl, .inl rfl⟩
  | await target =>
      cases target with
      | coroutine c =>
          refine ⟨_, .suspend_coroutine _ s t c, .inr ⟨c.name, ?_⟩⟩
          rw [taskId_of_get? hmine]
      | group g =>
          refine ⟨[], ?_, .inl rfl⟩
          rw [absorb, suspend_of_taken (w := v.modifyHandle top _) (hgroup g rfl)]
          exact (Reports.modifyTask _ (f := fun x => { x with state := .suspended }) (fun _ => rfl) s).trans
            (.deliver ..)

/-- A task that ends settles its group, if it was the last member without an outcome. -/
theorem eq_ended (hc : x.chain = [top]) {o : Outcome} (ho : step.outcome? = some o) : ∃ v',
    Reports s [.taskEnd x.id x.index o.isOk] 0 (v.modifyHandle top (·.left frame step)) v' ∧
      (∀ u, v'.tasks.get? u = if u = t then some (Task.ended
        { x with state := .running, inbox := .start, chain := [] } o) else v.tasks.get? u) ∧
      (∃ ctx, v'.context? s = some ctx) ∧
      w' = x.group.elim v' fun g => (v'.closeGroup s g).2 := by
  let x' : Task := { x with state := .running, inbox := .start }
  have hmine : (v.modifyHandle top (·.left frame step)).tasks.get? t = some x' := h.mine
  have hc' : x'.chain = [top] := hc
  refine ⟨(v.modifyHandle top (·.left frame step)).ended s t top x' o, reports_ended .., fun u => ?_,
    h.active, ?_⟩
  · exact get?_tasks_ended hmine hc' s o u
  · rw [h.eq_absorb, absorb_of_outcome? ho, unwind_last hmine hc']
    have hgroup : x'.group = x.group := rfl
    rw [hgroup]
    cases x.group <;> rfl

/-- A task that opens a group gets the result at once if no member is left to wait for. -/
theorem eq_enlisted {g : GroupRef} (hstep : step = .await (.group g)) (hfree : v.groupTaken g = false)
    {k : Nat} (hk : (v.modifyHandle top (·.left frame step)).number? s = some k) :
    ∃ y v', v.groups.get? g.id = some y ∧ Enlisted s t g y k (v.modifyHandle top (·.left frame step)) v' ∧
      w' = (v'.closeGroup s g).2 := by
  obtain ⟨y, hy, hnone⟩ := groupTaken_eq_false_iff.mp hfree
  subst hstep
  have henlisted := enlisted_startMembers (w := (v.modifyHandle top (·.left frame (.await (.group g)))).modifyTask t
    fun x => { x with state := .suspended }) hy (h.sound.grouped.idle hy hnone) hk t
  refine ⟨y, _, hy, henlisted.of_modifyTask fun _ => rfl, ?_⟩
  rw [h.eq_absorb]
  rw [absorb, suspend_of_free (w := v.modifyHandle top _) hfree,
    startGroup_of_get? (w := (v.modifyHandle top _).modifyTask t _) hy]

end Turn

end World

end Coroutines
