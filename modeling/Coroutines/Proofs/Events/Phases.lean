import Coroutines.Proofs.Events.Turns

/-!
# The phases of tasks

A task of a run is ready to go on, waits for the members of a group, or has ended: this is its phase in the
story that the events of the run tell (`World.InPhase`).  A turn leaves the phases of the other tasks, but
for the one that has waited for the task of the turn alone (`World.Turn.inPhase_other`).
-/

namespace Coroutines

/-- What a task has joined: the group, with the results of the claims of its members. -/
structure Occasion where
  group : Group
  claims : List (Option Failure)

namespace World

variable {β σ : Type} {w w' : World β σ} {s t u : Nat} {ph : Phase Occasion}

/-- What a task has come to: it is in the queue, or waits for a group, whose members are numbered from
`first` on, or has an outcome. -/
inductive InPhase (w : World β σ) (s t : Nat) : Phase Occasion → Prop
  | live (ho : w.taskOutcome? t = none) (hq : w.InQueue s t) : InPhase w s t .live
  | waiting {first : Nat} {g : GroupRef} {y : Group} {claims : List (Option Failure)} {ts : List Nat}
      {top : CoroutineRef} (hw : w.Waited s g y t claims ts top) (hc : claims.length = y.handles.length)
      (hopen : w.quiescent g = false) (hids : ∀ {j u}, ts[j]? = some u → w.taskId u = first + j) :
    InPhase w s t (.waiting first ⟨y, claims⟩)
  | ended (ho : (w.taskOutcome? t).isSome = true) : InPhase w s t .ended

theorem Waited.taskOutcome?_eq_none {g : GroupRef} {y : Group} {claims : List (Option Failure)}
    {ts : List Nat} {top : CoroutineRef} (h : w.Waited s g y t claims ts top) :
    w.taskOutcome? t = none := by
  obtain ⟨z, rest, hz, -, ho, -⟩ := h.row
  rw [taskOutcome?_of_get? hz, ho]

namespace InPhase

theorem used (h : w.InPhase s t ph) : ph ≠ .unused := by
  cases h <;> nofun

theorem eq_ended (h : w.InPhase s t ph) (ho : (w.taskOutcome? t).isSome = true) : ph = .ended := by
  cases h with
  | live hn => simp [hn] at ho
  | waiting hw => simp [hw.taskOutcome?_eq_none] at ho
  | ended => rfl

end InPhase

section

variable {l l' : Standing} {base : Nat → Start} {root : Nat} {c : CoroutineRef} {p : Place}

theorem Poised.place_of_inQueue (h : w.Poised s root c l base) (ht : l t = some (s, p))
    (hq : w.InQueue s t) : p = .ready := by
  obtain ⟨ctx, hctx, hmem⟩ := hq
  cases ht.symm.trans ((h.sound.queued.ready hctx t).mp hmem)
  rfl

theorem Poised.outcome_iff (h : w.Poised s root c l base) (ht : l t = some (s, p)) :
    (w.taskOutcome? t).isSome = true ↔ p = .ended := by
  obtain ⟨x, hx, hh⟩ := h.sound.chained.holds ht
  rw [taskOutcome?_of_get? hx]
  exact hh.outcome

/-- A task that is ready is live. -/
theorem Poised.eq_live (h : w.Poised s root c l base) (hph : w.InPhase s t ph)
    (ht : l t = some (s, .ready)) : ph = .live := by
  cases hph with
  | live => rfl
  | waiting hw hc hopen =>
      rw [h.quiescent hw.held hc ht nofun] at hopen
      cases hopen
  | ended ho => cases (h.outcome_iff ht).mp ho

/-- Whoever awaits a group with a member that has not ended waits for it. -/
theorem Poised.eq_waiting {g a : Nat} {x : Group} (h : w.Poised s root c l base)
    (hph : w.InPhase s a ph) (ha : l a = some (s, p)) (hx : w.groups.get? g = some x)
    (hawait : x.awaitedBy = some a) (ht : t ∈ x.tasks) (hlive : l t ≠ some (s, .ended)) :
    w.taskOutcome? a = none ∧ ∃ first y claims ts, ph = .waiting first ⟨y, claims⟩ ∧
      w.Held g y a claims ts ∧ claims.length = y.handles.length ∧
      ∀ {j u}, ts[j]? = some u → w.taskId u = first + j := by
  have hblocked : p = .blocked g := by
    by_contra hne
    exact hlive (h.sound.grouped.settled hx hawait ha hne t ht)
  subst hblocked
  cases hph with
  | live _ hq => cases h.place_of_inQueue ha hq
  | ended ho => cases (h.outcome_iff ha).mp ho
  | @waiting first g' y claims ts top hw hc hopen hids =>
      have hg : g = g'.id := by
        by_contra hne
        rw [h.quiescent hw.held hc ha fun e => hne (Place.blocked.inj e)] at hopen
        cases hopen
      subst hg
      cases hx.symm.trans hw.held.group
      exact ⟨hw.taskOutcome?_eq_none, first, y, claims, ts, rfl, hw.held, hc, hids⟩

/-! ### Members of a group that opens -/

namespace Enlisted

variable {g : GroupRef} {x : Group} {k : Nat} (h : Enlisted s t g x k w w')

include h

/-- The tasks that are new are those of the members: live, or over if their coroutines were refused. -/
theorem inPhase_member (ht : t < w.tasks.size) (hu : w.tasks.size ≤ u)
    (hfresh : (w'.closeGroup s g).2.Fresh s u) : ∃ j claim, u = w.tasks.size + j ∧
      (w.claims x.handles)[j]? = some claim ∧ (w'.closeGroup s g).2.taskId u = k + j ∧
      (w'.closeGroup s g).2.InPhase s u (if claim = none then .live else .ended) := by
  obtain ⟨z, hz, -, hcase⟩ := hfresh
  obtain ⟨j, rfl⟩ := Nat.exists_eq_add_of_le hu
  have hlt := Table.lt_size_of_get? hz
  rw [size_tasks_closeGroup, h.size] at hlt
  have hj : j < (w.claims x.handles).length := length_claims w x.handles ▸ Nat.lt_of_add_lt_add_left hlt
  have hclaim := List.getElem?_eq_getElem hj
  obtain ⟨z', hz', hid, hout⟩ := h.rows hclaim
  have hrow := get?_tasks_closeGroup h.held.group rfl (by omega : w.tasks.size + j ≠ t) hz' s
  cases hz.symm.trans hrow
  refine ⟨j, _, rfl, hclaim, (taskId_of_get? hrow).trans hid, ?_⟩
  rcases hcase with ⟨ho, hq⟩ | ⟨f, ho⟩ <;> rw [ho] at hout
  · rw [if_pos (by simpa using hout.symm)]
    exact .live (by rw [taskOutcome?_of_get? hrow, ho]) hq
  · rw [if_neg (by simpa [Option.isSome_iff_ne_none] using hout.symm)]
    exact .ended (by rw [taskOutcome?_of_get? hrow, ho]; rfl)

/-- There is nobody to wait for if nobody could be claimed. -/
theorem refused (hq : w'.quiescent g = true) {j : Nat} {claim : Option Failure}
    (hj : (w.claims x.handles)[j]? = some claim) : claim ≠ none := by
  have hlength := length_claims w x.handles
  obtain ⟨z, hz, -, hout⟩ := h.rows hj
  have hlt := (List.getElem?_eq_some_iff.mp hj).1
  have hmem : w.tasks.size + j ∈ List.range' w.tasks.size x.handles.length :=
    List.mem_range'_1.mpr ⟨Nat.le_add_right .., by omega⟩
  have hsome := (h.held.quiescent_iff hlength rfl).mp hq _ hmem
  rw [taskOutcome?_of_get? hz, hout] at hsome
  exact Option.isSome_iff_ne_none.mp hsome

/-- The task that has opened the group waits for the members else. -/
theorem inPhase_waiting {y : Group} {ts : List Nat} {claims : List (Option Failure)} {top : CoroutineRef}
    (hwaited : w'.Waited s g y t claims ts top) (hq : w'.quiescent g = false) :
    w'.InPhase s t (.waiting k ⟨x, w.claims x.handles⟩) := by
  have hlength := length_claims w x.handles
  obtain ⟨z, rest, hz, hchain, ho, -⟩ := hwaited.row
  have hwaits : w'.Waited s g x t (w.claims x.handles) (List.range' w.tasks.size x.handles.length) top :=
    ⟨h.held, z, rest, hz, hchain, ho, fun hq' => by cases hq.symm.trans hq'⟩
  refine .waiting hwaits hlength hq fun {j u} hj => ?_
  obtain ⟨hlt, rfl⟩ := List.getElem?_eq_some_iff.mp hj
  rw [List.length_range', ← hlength] at hlt
  obtain ⟨z, hz, hid, -⟩ := h.rows (List.getElem?_eq_getElem hlt)
  rw [List.getElem_range', Nat.one_mul, taskId_of_get? hz, hid]

end Enlisted

/-! ### Other tasks in a turn -/

namespace Turn

variable {bodies : Bodies β σ} {depth : Nat} {x : Task} {top : CoroutineRef} {frame : Frame} {step : Step}
  {v : World β σ} (h : Turn bodies depth s t l base w x top frame step v w')

include h

/-- The tasks of the run keep their numbers. -/
theorem taskId_eq (hp : w.Poised s root c l base) (hu : l u ≠ none) : w'.taskId u = w.taskId u := by
  obtain ⟨y, hy⟩ := hp.sound.exists_row hu
  have hv : u < v.tasks.size ∧ v.taskId u = w.taskId u := by
    rw [taskId_of_get? hy]
    by_cases e : u = t
    · subst e
      cases hy.symm.trans h.row
      exact ⟨Table.lt_size_of_get? h.mine, by rw [taskId_of_get? h.mine]⟩
    · have hrow := h.others e hu hy
      exact ⟨Table.lt_size_of_get? hrow, taskId_of_get? hrow⟩
  obtain ⟨es, n, hreports⟩ := Reports.absorb (v.modifyHandle top (·.left frame step)) s t top step
  rw [h.eq_absorb]
  exact (hreports.ids u hv.1).2.trans hv.2

/-- The other tasks of the run keep their outcomes. -/
theorem taskOutcome?_eq (hp : w.Poised s root c l base) (hu : l u ≠ none) (hne : u ≠ t) :
    w'.taskOutcome? u = w.taskOutcome? u := by
  obtain ⟨y, hy⟩ := hp.sound.exists_row hu
  obtain ⟨y', hy', -, ho⟩ := h.kept hne hu hy
  rw [taskOutcome?_of_get? hy, taskOutcome?_of_get? hy', ho]

/-- Another task stays in its phase, unless it awaits the group of which the task of the turn was the last
member. -/
theorem inPhase_other (hp : w.Poised s root c l base) {a : Nat} (ha : l a = some (s, p)) (hne : a ≠ t)
    (hph : w.InPhase s a ph) : w'.InPhase s a ph ∨ x.chain = [top] ∧ (∃ o, step.outcome? = some o) ∧
      ∃ g y claims ts, x.group = some g ∧ w.Held g.id y a claims ts ∧ w'.quiescent g = true := by
  have hl : l a ≠ none := by simp [ha]
  cases hph with
  | ended ho => exact .inl (.ended (by rwa [h.taskOutcome?_eq hp hl hne]))
  | live ho hq =>
      exact .inl (.live (by rwa [h.taskOutcome?_eq hp hl hne]) (h.ready_other hp.sound hne hq).1)
  | @waiting first g y claims ts _ hw hc hopen hids =>
      have hw' := h.waited hp.sound hw hc ha hne
      cases hq : w'.quiescent g with
      | false =>
          refine .inl (.waiting hw' hc hq fun {j u} hj => ?_)
          obtain ⟨q, hu⟩ := hp.sound.grouped.together hw.held.group rfl ha (List.mem_of_getElem? hj)
          rw [h.taskId_eq hp (by simp [hu]), hids hj]
      | true =>
          obtain ⟨hc, o, ref, ho, hg, href⟩ := h.last_member hp.sound hw.held hc ha hopen hq
          refine .inr ⟨hc, ⟨o, ho⟩, ref, y, claims, ts, hg, href ▸ hw.held, ?_⟩
          simpa only [World.quiescent, href] using hq

/-- The task of a turn that goes on is live. -/
theorem live (hends : ∀ o, step.outcome? = some o → x.chain ≠ [top])
    (hgroup : ∀ g, step = .await (.group g) → v.groupTaken g = true) : w'.InPhase s t .live := by
  obtain ⟨rest, hc⟩ := h.chain
  obtain ⟨y, hy, hcase⟩ := goesOn_absorb (w := v.modifyHandle top (·.left frame step)) (s := s) h.mine hc
    h.outcome rfl h.active hgroup
  obtain ⟨z, hz, hcase'⟩ := h.proceeds
  rw [← h.eq_absorb] at hy hcase
  cases hy.symm.trans hz
  rcases hcase with ⟨ho, hq, -⟩ | ⟨o, ho, hout⟩
  · exact .live (by rw [taskOutcome?_of_get? hz, ho]) hq
  · -- the chain of a task that has ended was all used up
    rcases hcase' with ⟨hnone, -⟩ | ⟨-, -, -, ⟨hnone, -⟩ | ⟨hchain, -⟩⟩
    · rw [hnone] at hout
      cases hout
    · rw [hnone] at hout
      cases hout
    · exact absurd hchain (hends o ho)

/-- No task is new, unless the turn opens a group. -/
theorem not_fresh (hgroup : ∀ g, step = .await (.group g) → v.groupTaken g = true)
    (hu : v.tasks.size ≤ u) : ¬ w'.Fresh s u := by
  rintro ⟨z, hz, -⟩
  have hsize : w'.tasks.size = v.tasks.size := by
    rw [h.eq_absorb]
    exact size_tasks_absorb hgroup
  exact absurd (Table.lt_size_of_get? hz) (Nat.not_lt.mpr (hsize ▸ hu))

/-- No task is new where one ends. -/
theorem not_fresh_of_outcome {o : Outcome} (ho : step.outcome? = some o) (hu : v.tasks.size ≤ u) :
    ¬ w'.Fresh s u := by
  refine h.not_fresh (fun g hg => ?_) hu
  subst hg
  cases ho

/-- A turn in which a coroutine comes to await a group that nobody has awaited joins the group. -/
theorem joins {g : GroupRef} (hstep : step = .await (.group g)) (hfree : v.groupTaken g = false) :
    Joins (resume bodies depth) s w t top g (v.modifyHandle top (·.left frame step)) w' := by
  subst hstep
  obtain ⟨w₁, w₂, hd, ht, hr⟩ := h.takes
  exact ⟨w₁, w₂, x.inbox, hd, ht, hr, hfree, h.absorbed⟩

/-- A task of the run stood in it before the turn, or it is new. -/
theorem standing_cases (hp : w.Poised s root c l base) (hp' : w'.Poised s root c l' base)
    (hu : l' u = some (s, p)) : (∃ q, l u = some (s, q)) ∨ v.tasks.size ≤ u ∧ w'.Fresh s u := by
  rcases h.taskOf_cases hp hp' (hp'.taskOf_of_standing hu) with hold | ⟨hnone, hfresh⟩
  · exact .inl (hp.standing_of_taskOf hold)
  · exact .inr ⟨Table.get?_eq_none_iff.mp hnone, hfresh⟩

end Turn

end

end World

end Coroutines
