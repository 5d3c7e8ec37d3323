import Coroutines.Proofs.Events.Ended
import Mathlib.Algebra.Ring.Nat

/-!
# The tasks of a run and their ends

The tasks of a run are numbered one after the other, and each of them but the root is that of a member of a
group that was joined (`World.Crew`).  The end of a task whose coroutine could be claimed is told once, with
the outcome that the task has.  A member whose coroutine was refused has failed as soon as it is a task, and
no end of it is ever told: so the failures that a run tells of are fewer than its tasks that have failed, by
the members that were refused (`World.Crew.failures`).
-/

namespace Coroutines

namespace Event

/-- How a task ended, as its end tells. -/
def verdict? (q : Nat) : Event → Option Bool
  | .taskEnd p _ ok => if p = q then some ok else none
  | _ => none

/-- A task ended, and failed. -/
def isFailure : Event → Bool
  | .taskEnd _ _ ok => !ok
  | _ => false

end Event

/-- How a task ended, as often as its end is told. -/
def verdicts (q : Nat) (es : List Event) : List Bool := es.filterMap (Event.verdict? q)

/-- The task of a number is that of a member of what was joined, which could be claimed or not. -/
def Enrolled {ι : Type} (J : Occasions ι) (es : List Event) (q : Nat) (claim : Option Failure) : Prop :=
  ∃ pre p i first post k name,
    es = pre ++ .joinStart p (J.members i).length ::
      (spawns first ((J.members i).map Prod.fst) ++ post) ∧
    J.starts pre p i ∧ (J.members i)[k]? = some (name, claim) ∧ q = first + k

section

variable {q : Nat} {es es' : List Event} {claim : Option Failure} {ι : Type} {J : Occasions ι}

theorem verdicts_append : verdicts q (es ++ es') = verdicts q es ++ verdicts q es' :=
  List.filterMap_append ..

theorem verdicts_eq_nil (h : ∀ index ok, .taskEnd q index ok ∉ es) : verdicts q es = [] := by
  refine List.filterMap_eq_nil_iff.mpr fun e he => ?_
  cases e with
  | taskEnd p index ok => exact if_neg fun hp => h index ok (by rwa [← hp])
  | _ => rfl

theorem Enrolled.append (h : Enrolled J es q claim) (es' : List Event) :
    Enrolled J (es ++ es') q claim := by
  obtain ⟨pre, p, i, first, post, k, name, rfl, hrest⟩ := h
  exact ⟨pre, p, i, first, post ++ es', k, name, by simp, hrest⟩

/-- What is counted entry by entry is counted in the whole list. -/
theorem sum_add_countP {α : Type} {l : List α} {f : α → Nat} {p r : α → Bool}
    (h : ∀ m ∈ l, f m + (if p m = true then 1 else 0) = if r m = true then 1 else 0) :
    (l.map f).sum + l.countP p = l.countP r := by
  induction l with
  | nil => rfl
  | cons m l ih =>
    have hm := h m List.mem_cons_self
    have hrest := ih fun m' hm' => h m' (List.mem_cons_of_mem _ hm')
    rw [List.map_cons, List.sum_cons, List.countP_cons, List.countP_cons]
    omega

/-- The failures that are told of, task by task. -/
theorem countP_isFailure (qs : Finset Nat) (h : ∀ {q index ok}, .taskEnd q index ok ∈ es → q ∈ qs) :
    es.countP Event.isFailure = ∑ q ∈ qs, (verdicts q es).count false := by
  induction es with
  | nil => exact (Finset.sum_eq_zero fun _ _ => rfl).symm
  | cons e es ih =>
    have hone : ∑ q ∈ qs, (verdicts q [e]).count false = if e.isFailure = true then 1 else 0 := by
      cases e with
      | taskEnd p index ok =>
        have hcount : ∀ q, (verdicts q [.taskEnd p index ok]).count false =
            if p = q then (if ok then 0 else 1) else 0 := by
          intro q
          by_cases hq : p = q <;> cases ok <;> simp [verdicts, Event.verdict?, hq]
        rw [Finset.sum_congr rfl fun q _ => hcount q, Finset.sum_ite_eq, if_pos (h List.mem_cons_self)]
        cases ok <;> rfl
      | _ => exact Finset.sum_eq_zero fun _ _ => rfl
    have hcons : ∀ q, (verdicts q (e :: es)).count false =
        (verdicts q [e]).count false + (verdicts q es).count false := fun q => by
      rw [← List.count_append, ← verdicts_append, List.singleton_append]
    rw [Finset.sum_congr rfl fun q _ => hcons q, Finset.sum_add_distrib, hone, List.countP_cons,
      ih fun he => h (List.mem_cons_of_mem _ he), Nat.add_comm]

end

namespace World

variable {β σ ι : Type} {w w' : World β σ} {J : Occasions ι} {root : Nat} {es new : List Event}
  {crew more : List (Nat × Option Failure)}

/-- The tasks of a run in the order of their numbers, each with the failure of the claim of its coroutine,
and what some events tell of their ends. -/
structure Crew (J : Occasions ι) (root : Nat) (w : World β σ) (es : List Event)
    (crew : List (Nat × Option Failure)) : Prop where
  tasks : ∀ t, w.TaskOf root t ↔ t ∈ crew.map Prod.fst
  numbered : crew.map (w.taskId ·.1) = List.range' (w.taskId root) crew.length
  enrolled : ∀ t claim, (t, claim) ∈ crew → t = root ∧ claim = none ∨ Enrolled J es (w.taskId t) claim
  /-- No end is told but that of a task of the run. -/
  within : ∀ q index ok, .taskEnd q index ok ∈ es → ∃ t, w.TaskOf root t ∧ w.taskId t = q
  /-- The end of a task whose coroutine was claimed is told once it has an outcome, and tells of it. -/
  claimed : ∀ t, (t, none) ∈ crew →
    verdicts (w.taskId t) es = (w.taskOutcome? t).toList.map Outcome.isOk
  /-- A task whose coroutine was refused has failed with that, and its end is not told. -/
  refused : ∀ t f, (t, some f) ∈ crew →
    w.taskOutcome? t = some (.error (.ofFailure f)) ∧ verdicts (w.taskId t) es = []

namespace Crew

variable (h : Crew J root w es crew)

include h

theorem taskId_mem {t : Nat} (ht : w.TaskOf root t) :
    w.taskId t ∈ List.range' (w.taskId root) crew.length := by
  obtain ⟨m, hm, rfl⟩ := List.mem_map.mp ((h.tasks t).mp ht)
  rw [← h.numbered]
  exact List.mem_map_of_mem hm

theorem taskOf {t : Nat} {claim : Option Failure} (hm : (t, claim) ∈ crew) : w.TaskOf root t :=
  (h.tasks t).mpr (List.mem_map_of_mem hm)

/-- No two tasks have one number. -/
theorem taskId_injective {t u : Nat} (ht : w.TaskOf root t) (hu : w.TaskOf root u)
    (he : w.taskId t = w.taskId u) : t = u := by
  obtain ⟨m, hm, rfl⟩ := List.mem_map.mp ((h.tasks t).mp ht)
  obtain ⟨m', hm', rfl⟩ := List.mem_map.mp ((h.tasks u).mp hu)
  have hnodup : (crew.map (w.taskId ·.1)).Nodup := h.numbered ▸ List.nodup_range'
  rw [List.inj_on_of_nodup_map hnodup hm hm' he]

/-- More is told, and tasks are added for members of what was joined. -/
theorem extend (htasks : ∀ t, w'.TaskOf root t ↔ w.TaskOf root t ∨ t ∈ more.map Prod.fst)
    (hids : ∀ t, w.TaskOf root t → w'.taskId t = w.taskId t)
    (hnumbers : more.map (w'.taskId ·.1) =
      List.range' (w.taskId root + crew.length) more.length)
    (hmembers : ∀ t claim, (t, claim) ∈ more → Enrolled J (es ++ new) (w'.taskId t) claim ∧
      w'.taskOutcome? t = claim.map fun f => .error (.ofFailure f))
    (hends : ∀ q index ok, .taskEnd q index ok ∈ new → ∃ t, w.TaskOf root t ∧ w.taskId t = q)
    (hold : ∀ t, w.TaskOf root t →
      w'.taskOutcome? t = w.taskOutcome? t ∧ verdicts (w.taskId t) new = [] ∨ w.taskOutcome? t = none ∧
        verdicts (w.taskId t) new = (w'.taskOutcome? t).toList.map Outcome.isOk) :
    Crew J root w' (es ++ new) (crew ++ more) := by
  have hroot := hids root .root
  have hmore : ∀ {t}, w.TaskOf root t → w'.TaskOf root t := fun ht => (htasks _).mpr (.inl ht)
  have hwithin : ∀ q index ok, .taskEnd q index ok ∈ es ++ new →
      ∃ t, w.TaskOf root t ∧ w.taskId t = q :=
    fun q index ok he => (List.mem_append.mp he).elim (h.within q index ok) (hends q index ok)
  -- the numbers of the new tasks are not used before
  have hsilent : ∀ {t claim}, (t, claim) ∈ more → verdicts (w'.taskId t) (es ++ new) = [] := by
    intro t claim hm
    refine verdicts_eq_nil fun index ok he => ?_
    obtain ⟨u, hu, hid⟩ := hwithin _ index ok he
    have hnew : w'.taskId t ∈ more.map (w'.taskId ·.1) := List.mem_map_of_mem hm
    have hused := h.taskId_mem hu
    rw [hnumbers, List.mem_range'_1] at hnew
    rw [List.mem_range'_1] at hused
    omega
  constructor
  · intro t
    rw [htasks, h.tasks, List.map_append, List.mem_append]
  · rw [List.map_append, hnumbers, hroot, List.length_append, ← List.range'_append_1, ← h.numbered]
    exact congrArg (· ++ _) (List.map_congr_left fun m hm => hids _ (h.taskOf hm))
  · intro t claim hm
    rcases List.mem_append.mp hm with hm | hm
    · rw [hids t (h.taskOf hm)]
      exact (h.enrolled t claim hm).imp_right (·.append new)
    · exact .inr (hmembers t claim hm).1
  · intro q index ok he
    obtain ⟨t, ht, rfl⟩ := hwithin q index ok he
    exact ⟨t, hmore ht, hids t ht⟩
  · intro t hm
    rcases List.mem_append.mp hm with hm | hm
    · have ht := h.taskOf hm
      rw [hids t ht, verdicts_append, h.claimed t hm]
      rcases hold t ht with ⟨hsame, hnone⟩ | ⟨hnone, hverdicts⟩
      · rw [hsame, hnone, List.append_nil]
      · rw [hnone, hverdicts]
        rfl
    · rw [hsilent hm, (hmembers t none hm).2]
      rfl
  · intro t f hm
    rcases List.mem_append.mp hm with hm | hm
    · have ht := h.taskOf hm
      obtain ⟨hfailed, hnever⟩ := h.refused t f hm
      rw [hids t ht, verdicts_append, hnever]
      rcases hold t ht with ⟨hsame, hnone⟩ | ⟨hnone, -⟩
      · exact ⟨hsame.trans hfailed, by rw [hnone]; rfl⟩
      · rw [hfailed] at hnone
        cases hnone
    · exact ⟨(hmembers t (some f) hm).2, hsilent hm⟩

/-- Events that are no ends of tasks may follow. -/
theorem append (new : List Event) (hnever : ∀ q index ok, .taskEnd q index ok ∉ new) :
    Crew J root w (es ++ new) crew := by
  have hmore : Crew J root w (es ++ new) (crew ++ []) :=
    h.extend (by simp) (fun _ _ => rfl) rfl nofun (fun q index ok he => (hnever q index ok he).elim)
      fun t _ => .inl ⟨rfl, verdicts_eq_nil (hnever (w.taskId t))⟩
  rwa [List.append_nil] at hmore

/-- **The failures that are told of**, together with the members that were refused, are the tasks that have
failed. -/
theorem failures (hout : ∀ t, w.TaskOf root t → (w.taskOutcome? t).isSome = true) :
    es.countP Event.isFailure + crew.countP (·.2.isSome) =
      crew.countP fun m => (w.taskOutcome? m.1).any (!·.isOk) := by
  have hnodup : (crew.map (w.taskId ·.1)).Nodup := h.numbered ▸ List.nodup_range'
  have htold : es.countP Event.isFailure =
      (crew.map fun m => (verdicts (w.taskId m.1) es).count false).sum := by
    rw [countP_isFailure (crew.map (w.taskId ·.1)).toFinset, List.sum_toFinset _ hnodup,
      List.map_map]
    · rfl
    · intro q index ok he
      obtain ⟨t, ht, rfl⟩ := h.within q index ok he
      rw [List.mem_toFinset, h.numbered]
      exact h.taskId_mem ht
  -- task by task, a failure is told of or the coroutine was refused
  have heach : ∀ m ∈ crew, (verdicts (w.taskId m.1) es).count false +
      (if m.2.isSome = true then 1 else 0) =
        if (w.taskOutcome? m.1).any (!·.isOk) = true then 1 else 0 := by
    rintro ⟨t, - | f⟩ hm
    · obtain ⟨o, ho⟩ := Option.isSome_iff_exists.mp (hout t (h.taskOf hm))
      rw [h.claimed t hm, ho]
      cases o <;> rfl
    · obtain ⟨hfailed, hnever⟩ := h.refused t f hm
      rw [hfailed, hnever]
      rfl
  rw [htold, sum_add_countP heach]

end Crew

/-! ### The members of a group that opens -/

/-- The new tasks of the members of a group that opens, each with the failure of the claim of its
coroutine. -/
def recruits (w : World β σ) (x : Group) : List (Nat × Option Failure) :=
  (List.range' w.tasks.size x.handles.length).zip (w.claims x.handles)

section

variable {s t k j u : Nat} {g : GroupRef} {x : Group} {claim : Option Failure}

theorem fst_recruits (w : World β σ) (x : Group) :
    (w.recruits x).map Prod.fst = List.range' w.tasks.size x.handles.length :=
  List.map_fst_zip (by rw [List.length_range', length_claims])

theorem length_recruits (w : World β σ) (x : Group) : (w.recruits x).length = x.handles.length := by
  rw [← List.length_map (f := Prod.fst), fst_recruits, List.length_range']

theorem get?_recruits (h : (w.recruits x)[j]? = some (u, claim)) :
    u = w.tasks.size + j ∧ (w.claims x.handles)[j]? = some claim := by
  obtain ⟨hu, hclaim⟩ := List.getElem?_zip_eq_some.mp h
  obtain ⟨hlt, rfl⟩ := List.getElem?_eq_some_iff.mp hu
  exact ⟨by rw [List.getElem_range', Nat.one_mul], hclaim⟩

namespace Enlisted

variable (h : Enlisted s t g x k w w')

include h

/-- The new task of a member has failed if its coroutine was refused. -/
theorem taskOutcome?_member (hj : (w.claims x.handles)[j]? = some claim) :
    w'.taskOutcome? (w.tasks.size + j) = claim.map fun f => .error (.ofFailure f) := by
  obtain ⟨z, hz, -, hout⟩ := h.rows hj
  have hlength := length_claims w x.handles
  have hlt : j < x.handles.length := hlength ▸ (List.getElem?_eq_some_iff.mp hj).1
  have hslot : w'.Slot (w.tasks.size + j) x.handles[j] claim := by
    obtain ⟨hclaim, rfl⟩ := List.getElem?_eq_some_iff.mp hj
    have hget := h.held.slots.get (i := j) (by simpa [hlength] using hlt) (by simpa using hlt)
    simpa using hget
  rw [taskOutcome?_of_get? hz]
  cases claim with
  | none => simpa using hout
  | some f =>
    obtain ⟨o, ho⟩ := Option.isSome_iff_exists.mp hout
    rw [ho, hslot.outcome ((taskOutcome?_of_get? hz).trans ho)]
    rfl

/-- The new tasks have the next numbers in the order of the members. -/
theorem recruit (hj : (w.recruits x)[j]? = some (u, claim)) :
    (w'.closeGroup s g).2.taskId u = k + j ∧
      (w'.closeGroup s g).2.taskOutcome? u = claim.map fun f => .error (.ofFailure f) := by
  obtain ⟨rfl, hclaim⟩ := get?_recruits hj
  obtain ⟨z, hz, hid, -⟩ := h.rows hclaim
  obtain ⟨es, hreports, -⟩ := Reports.closeGroup w' s g
  refine ⟨(hreports.ids _ (Table.lt_size_of_get? hz)).2.trans ((taskId_of_get? hz).trans hid), ?_⟩
  rw [taskOutcome?_closeGroup]
  exact h.taskOutcome?_member hclaim

theorem numbered : (w.recruits x).map ((w'.closeGroup s g).2.taskId ·.1) =
    List.range' k (w.recruits x).length := by
  refine List.ext_getElem (by simp) fun j hj hj' => ?_
  rw [List.length_map] at hj
  rw [List.getElem_map, List.getElem_range', Nat.one_mul]
  have hget : (w.recruits x)[j]? = some ((w.recruits x)[j].1, (w.recruits x)[j].2) :=
    List.getElem?_eq_getElem hj
  exact (h.recruit hget).1

/-- A task that is new is that of a member. -/
theorem mem_recruits (hnew : w.tasks.get? u = none) {z : Task}
    (hz : (w'.closeGroup s g).2.tasks.get? u = some z) : u ∈ (w.recruits x).map Prod.fst := by
  have hlt := Table.lt_size_of_get? hz
  rw [size_tasks_closeGroup, h.size] at hlt
  rw [fst_recruits]
  exact List.mem_range'_1.mpr ⟨Table.get?_eq_none_iff.mp hnew, hlt⟩

/-- The members of a group that a task of the run has opened are tasks of the run. -/
theorem taskOf (ht : (w'.closeGroup s g).2.TaskOf root t) (hu : u ∈ (w.recruits x).map Prod.fst) :
    (w'.closeGroup s g).2.TaskOf root u := by
  rw [fst_recruits] at hu
  have hgroup : (w'.closeGroup s g).2.groups.get? g.id = _ :=
    (congrArg (Table.get? · g.id) (w'.rows_closeGroup s g).1).trans h.held.group
  exact .member ht hgroup rfl hu

end Enlisted

end

/-! ### The crew in the turns of a run -/

section

variable {bodies : Bodies β σ} {depth s t n : Nat} {l l' : Standing} {base : Nat → Start}
  {c top : CoroutineRef} {w₀ v : World β σ} {earlier : List Event} {x : Task} {frame : Frame}
  {step : Step} {log log' : List (CoroutineRef × Step)}

/-- The crew of a run at one of its turns, with the events that the run has reported so far. -/
structure Mustered (bodies : Bodies β σ) (depth s : Nat) (w₀ : World β σ) (earlier : List Event)
    (root : Nat) (log : List (CoroutineRef × Step)) (w : World β σ) (es : List Event)
    (crew : List (Nat × Option Failure)) : Prop where
  turns : Turns (resume bodies depth) s w₀ log w
  events : w.events s = earlier ++ es
  number : w.number? s = some (w.taskId root + crew.length)
  crew : Crew (occasions (resume bodies depth) s w₀ earlier) root w es crew

namespace Mustered

variable (hm : Mustered bodies depth s w₀ earlier root log w es crew) (hp : w.Poised s root c l base)
  (h : Turn bodies depth s t l base w x top frame step v w')
  (hmore : Turns (resume bodies depth) s w₀ log' w')

include hm hp h hmore

/-- A turn goes on with the crew, with new tasks or none. -/
theorem extend (hreports : Reports s new more.length (v.modifyHandle top (·.left frame step)) w')
    (htasks : ∀ u, w'.TaskOf root u → w.TaskOf root u ∨ u ∈ more.map Prod.fst)
    (hadded : ∀ u ∈ more.map Prod.fst, w'.TaskOf root u)
    (hnumbers : more.map (w'.taskId ·.1) =
      List.range' (w.taskId root + crew.length) more.length)
    (hmembers : ∀ u claim, (u, claim) ∈ more →
      Enrolled (occasions (resume bodies depth) s w₀ earlier) (es ++ new) (w'.taskId u) claim ∧
        w'.taskOutcome? u = claim.map fun f => .error (.ofFailure f))
    (hends : ∀ q index ok, .taskEnd q index ok ∈ new → q = x.id)
    (hmine : verdicts x.id new = (w'.taskOutcome? t).toList.map Outcome.isOk) :
    Mustered bodies depth s w₀ earlier root log' w' (es ++ new) (crew ++ more) := by
  have hid : w.taskId t = x.id := taskId_of_get? h.row
  have ht := hp.taskOf_of_standing h.ready
  have hstand : ∀ {u}, w.TaskOf root u → l u ≠ none := fun hu => by
    obtain ⟨p, hl⟩ := hp.standing_of_taskOf hu
    simp [hl]
  have hids : ∀ u, w.TaskOf root u → w'.taskId u = w.taskId u := fun u hu => h.taskId_eq hp (hstand hu)
  obtain ⟨hevents, hnumber⟩ := h.told hreports
  refine ⟨hmore, ?events, ?number, hm.crew.extend (fun u => ⟨htasks u, ?added⟩) hids hnumbers hmembers
    (fun q index ok he => ⟨t, ht, hid.trans (hends q index ok he).symm⟩) fun u hu => ?verdicts⟩
  case events =>
    rw [hevents, hm.events, List.append_assoc]
  case number =>
    rw [hnumber, hm.number, hids root .root, List.length_append, ← Nat.add_assoc]
    rfl
  case added =>
    rintro (hu | hu)
    · exact h.taskOf hu
    · exact hadded u hu
  case verdicts =>
    by_cases e : u = t
    · subst e
      exact .inr ⟨(taskOutcome?_of_get? h.row).trans h.outcome, hid ▸ hmine⟩
    · refine .inl ⟨h.taskOutcome?_eq hp (hstand hu) e, verdicts_eq_nil fun index ok he => e ?_⟩
      exact hm.crew.taskId_injective hu ht ((hends _ index ok he).trans hid.symm)

variable (hp' : w'.Poised s root c l' base)

include hp'

/-- A turn that opens no group keeps the crew. -/
theorem keep (hreports : Reports s new 0 (v.modifyHandle top (·.left frame step)) w')
    (hnone : ∀ {u}, v.tasks.size ≤ u → ¬ w'.Fresh s u)
    (hends : ∀ q index ok, .taskEnd q index ok ∈ new → q = x.id)
    (hmine : verdicts x.id new = (w'.taskOutcome? t).toList.map Outcome.isOk) :
    Mustered bodies depth s w₀ earlier root log' w' (es ++ new) crew := by
  have hkept : Mustered bodies depth s w₀ earlier root log' w' (es ++ new) (crew ++ []) := by
    refine hm.extend hp h hmore hreports (fun u hu => ?_) nofun rfl nofun hends hmine
    rcases h.taskOf_cases hp hp' hu with hold | ⟨hfree, hfresh⟩
    · exact .inl hold
    · exact (hnone (Table.get?_eq_none_iff.mp hfree) hfresh).elim
  rwa [List.append_nil] at hkept

/-- A turn of a task that goes on. -/
theorem goesOn (hends : ∀ o, step.outcome? = some o → x.chain ≠ [top])
    (hgroup : ∀ g, step = .await (.group g) → v.groupTaken g = true) :
    ∃ new, Mustered bodies depth s w₀ earlier root log' w' (es ++ new) crew := by
  obtain ⟨new, hreports, hcase⟩ := h.reports_goesOn hends hgroup
  have hnever : ∀ q index ok, .taskEnd q index ok ∉ new := by
    rcases hcase with rfl | ⟨awaiting, rfl⟩ <;> simp
  have hout : w'.taskOutcome? t = none := by
    cases h.live hends hgroup with
    | live ho => exact ho
  exact ⟨new, hm.keep hp h hmore hp' hreports (h.not_fresh hgroup)
    (fun q index ok he => (hnever q index ok he).elim)
    (by rw [hout, verdicts_eq_nil (hnever x.id)]; rfl)⟩

/-- A turn in which a task ends. -/
theorem ends (hc : x.chain = [top]) {o : Outcome} (ho : step.outcome? = some o) :
    ∃ new, Mustered bodies depth s w₀ earlier root log' w' (es ++ new) crew := by
  obtain ⟨m, hreports, hrows, -, hw'⟩ := h.eq_ended hc ho
  -- its group may settle, which changes no outcome
  obtain ⟨closing, hclosing, hjoins, hsame⟩ : ∃ closing, Reports s closing 0 m w' ∧
      (∀ e ∈ closing, ∃ p ok, e = .joinEnd p ok) ∧ w'.taskOutcome? t = m.taskOutcome? t := by
    cases hg : x.group with
    | none =>
      rw [hg] at hw'
      exact ⟨[], hw' ▸ .refl m s, nofun, by rw [hw']; rfl⟩
    | some g =>
      rw [hg] at hw'
      obtain ⟨closing, hclosing, -, hjoins⟩ := Reports.closeGroup m s g
      exact ⟨closing, hw' ▸ hclosing, hjoins, by rw [hw']; exact taskOutcome?_closeGroup m s g t⟩
  have hout : w'.taskOutcome? t = some o :=
    hsame.trans (taskOutcome?_of_get? ((hrows t).trans (if_pos rfl)))
  have hnever : ∀ q index ok, .taskEnd q index ok ∉ closing := fun q index ok he => by
    obtain ⟨p, ok', e⟩ := hjoins _ he
    cases e
  refine ⟨_, hm.keep hp h hmore hp' (hreports.trans hclosing) (h.not_fresh_of_outcome ho)
    (fun q index ok he => ?_) ?_⟩
  · rcases List.mem_cons.mp he with e | he
    · cases e
      rfl
    · exact (hnever q index ok he).elim
  · rw [verdicts_append, verdicts_eq_nil (hnever x.id), hout, List.append_nil]
    simp [verdicts, Event.verdict?]

/-- A turn in which a task joins a group, whose members become tasks. -/
theorem joins (hb : bodies.Orderly) {g : GroupRef} (hstep : step = .await (.group g))
    (hfree : v.groupTaken g = false) : ∃ new recruits,
      Mustered bodies depth s w₀ earlier root log' w' (es ++ new) (crew ++ recruits) := by
  subst hstep
  have hj := h.joins rfl hfree
  have hid : w.taskId t = x.id := taskId_of_get? h.row
  obtain ⟨y, m, hy, hlisted, hw'⟩ :=
    h.eq_enlisted rfl hfree ((congrArg Prod.snd h.counts.2).trans hm.number)
  obtain ⟨closing, hclosing, -, hjoins⟩ := Reports.closeGroup m s g
  rw [← hw'] at hclosing
  let i : Occasion := ⟨y, (v.modifyHandle top (·.left frame (.await (.group g)))).claims y.handles⟩
  have hlength : i.claims.length = i.group.handles.length := length_claims ..
  have hv : (v.modifyHandle top (·.left frame (.await (.group g)))).taskId t = x.id :=
    (taskId_of_get? h.mine :)
  have hreports := hlisted.reports
  rw [hv] at hreports
  have hstarts : (occasions (resume bodies depth) s w₀ earlier).starts es x.id i :=
    ⟨log, w, t, top, g, _, w', hm.turns, hj, hm.events, hid, hy, rfl⟩
  have hnever : ∀ q index ok, .taskEnd q index ok ∉ .joinStart x.id y.handles.length ::
      spawns (w.taskId root + crew.length) (y.handles.map CoroutineRef.name) ++ closing := by
    intro q index ok he
    rcases List.mem_append.mp he with he | he
    · rcases List.mem_cons.mp he with e | he
      · cases e
      · exact taskEnd_notMem_spawns he
    · obtain ⟨p, ok', e⟩ := hjoins _ he
      cases e
  have hlen := length_recruits (v.modifyHandle top (·.left frame (.await (.group g)))) y
  refine ⟨_, _, hm.extend hp h hmore ((hreports.trans hclosing).congr rfl hlen) (fun u hu => ?complete)
    (fun u hu => ?sound) ?numbered (fun u claim hu => ?told)
    (fun q index ok he => (hnever q index ok he).elim) ?outcome⟩
  case complete =>
    rcases h.taskOf_cases hp hp' hu with hold | ⟨hnew, z, hz, -⟩
    · exact .inl hold
    · exact .inr (hlisted.mem_recruits hnew (hw' ▸ hz))
  case sound =>
    have ht := h.taskOf (hp.taskOf_of_standing h.ready)
    rw [hw'] at ht ⊢
    exact hlisted.taskOf ht hu
  case numbered =>
    rw [hw']
    exact hlisted.numbered
  case told =>
    obtain ⟨k, hk⟩ := List.mem_iff_getElem?.mp hu
    obtain ⟨hnumber, hout⟩ := hlisted.recruit hk
    obtain ⟨name, hin⟩ :=
      exists_member_of_claim (resume bodies depth) s w₀ earlier hlength (get?_recruits hk).2
    refine ⟨⟨es, x.id, i, w.taskId root + crew.length, closing, k, name, ?_, hstarts, hin,
      hw' ▸ hnumber⟩, hw' ▸ hout⟩
    rw [length_members _ s w₀ earlier hlength, names_members _ s w₀ earlier hlength]
    rfl
  case outcome =>
    obtain ⟨-, -, y', ts, -, -, hy', hwaited⟩ := hp.joins hb hj
    rw [hwaited.taskOutcome?_eq_none, verdicts_eq_nil (hnever x.id)]
    rfl

/-- **Every turn of a run goes on with the crew.** -/
theorem turn (hb : bodies.Orderly) : ∃ new recruits,
    Mustered bodies depth s w₀ earlier root log' w' (es ++ new) (crew ++ recruits) := by
  by_cases hjoin : ∃ g, step = .await (.group g) ∧ v.groupTaken g = false
  · obtain ⟨g, hstep, hfree⟩ := hjoin
    exact hm.joins hp h hmore hp' hb hstep hfree
  have hkeeps : ∃ new, Mustered bodies depth s w₀ earlier root log' w' (es ++ new) crew := by
    by_cases hend : ∃ o, step.outcome? = some o ∧ x.chain = [top]
    · obtain ⟨o, ho, hc⟩ := hend
      exact hm.ends hp h hmore hp' hc ho
    · exact hm.goesOn hp h hmore hp' (fun o ho hc => hend ⟨o, ho, hc⟩) fun g hg =>
        (Bool.not_eq_false _).mp fun hfree => hjoin ⟨g, hg, hfree⟩
  obtain ⟨new, hkept⟩ := hkeeps
  exact ⟨new, [], by rwa [List.append_nil]⟩

end Mustered

/-- The crew of a run that starts is its root. -/
theorem Poised.mustered {r : Nat} (hp : w.Poised s root c l base) (hid : w.taskId root = r)
    (hf : Narrated bodies depth s w earlier r c.name [] l w [.runStart c.name] (r + 1)
      (Function.update (fun _ => .unused) r .live)) :
    Mustered bodies depth s w earlier root [] w [.runStart c.name] [(root, none)] := by
  obtain ⟨p, hroot⟩ := hp.standing_of_taskOf .root
  have honly : ∀ t, w.TaskOf root t → t = root := fun t ht => by
    obtain ⟨q, hl⟩ := hp.standing_of_taskOf ht
    refine hf.distinct hl hroot ?_
    by_contra hne
    have hused := (hf.phases hl).used
    rw [Function.update_of_ne (hid ▸ hne)] at hused
    exact hused rfl
  have hout : w.taskOutcome? root = none := by
    have hlive := hf.phases hroot
    rw [hid, Function.update_self] at hlive
    cases hlive with
    | live ho => exact ho
  refine ⟨.refl, hf.events, by rw [hf.number, hid]; rfl,
    ⟨fun t => ?tasks, rfl, ?enrolled, ?within, ?claimed, ?refused⟩⟩
  case tasks =>
    rw [List.map_singleton, List.mem_singleton]
    exact ⟨honly t, fun e => e ▸ .root⟩
  case enrolled =>
    intro t claim hm
    exact .inl (Prod.mk.inj (List.mem_singleton.mp hm))
  case within =>
    intro q index ok he
    cases List.mem_singleton.mp he
  case claimed =>
    intro t hm
    cases List.mem_singleton.mp hm
    rw [hout]
    rfl
  case refused =>
    intro t f hm
    cases List.mem_singleton.mp hm

/-- **A run has a crew at any of its turns.** -/
theorem Mustered.run (hb : bodies.Orderly) (hm : Mustered bodies depth s w₀ earlier root log w es crew)
    (hp : w.Poised s root c l base) (ht : Turns (resume bodies depth) s w log' w') :
    ∃ l' new more, w'.Poised s root c l' base ∧
      Mustered bodies depth s w₀ earlier root (log ++ log') w' (es ++ new) (crew ++ more) := by
  induction ht with
  | refl => exact ⟨l, [], [], hp, by simpa using hm⟩
  | more hturns hd hs ih =>
    obtain ⟨l₁, new, more, hp₁, hm₁⟩ := ih
    obtain ⟨l₂, hp₂, -, x, top, frame, step, v, hturn, -⟩ := hp₁.apart hb hd hs
    obtain ⟨new₂, more₂, hm₂⟩ := hm₁.turn hp₁ hturn (hm₁.turns.more hd hs) hp₂ hb
    exact ⟨l₂, new ++ new₂, more ++ more₂, hp₂, by simpa using hm₂⟩

/-- The crew of a run at one of its turns, from the start of the run on. -/
theorem Opens.mustered {α : Type} {action : Action β σ α} {limits : List (Option Number)} {shared : σ}
    {fuel : Nat} (ho : Opens bodies action fuel (World.initial limits shared) s c depth root w)
    (hb : bodies.Orderly) (ha : action.Orderly) (ht : Turns (resume bodies depth) s w log w') :
    ∃ earlier new crew l base, w.events s = earlier ++ [.runStart c.name] ∧
      w'.Poised s root c l base ∧
      Mustered bodies depth s w earlier root log w' (.runStart c.name :: new) crew := by
  obtain ⟨w₀, l₀, base₀, hsound, hs⟩ :=
    (Sound.initial limits shared fun _ => ⟨0, c⟩).opened hb ha ho
  obtain ⟨r, l₁, base₁, hp, hid, -, hnarrated⟩ := hsound.narrated hs bodies depth
  obtain ⟨l', new, more, hp', hm⟩ := (hp.mustered hid hnarrated).run hb hp ht
  exact ⟨_, new, _, l', base₁, hnarrated.events, hp', hm⟩

end

end World

end Coroutines
