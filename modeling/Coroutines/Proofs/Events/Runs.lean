import Coroutines.Proofs.Events.Brackets
import Coroutines.Proofs.Events.Phases

/-!
# The story that a run tells

The events that a run has reported between two of its turns are a story whose phases are those of the
tables (`World.Narrated`): every turn adds lines to it (`World.Narrated.turn`).  What a story says of its
joins and ends is so said of the events of the run.
-/

namespace Coroutines

namespace World

variable {β σ : Type} {w w' : World β σ}

section

variable (resume : CoroutineRef → Input → World β σ → Except Abort Step × World β σ) (s : Nat)
  (w₀ : World β σ)

/-- The groups that are joined in a run from its first turn on, with the results of the claims of their
members.  A join starts in a turn in which a task comes to await the group, and ends in the turn that hands
the task the result of the group. -/
def occasions (earlier : List Event) : Occasions Occasion where
  members i := (i.group.handles.map CoroutineRef.name).zip i.claims
  starts es p i := ∃ log w t top g v w', Turns resume s w₀ log w ∧ Joins resume s w t top g v w' ∧
    w.events s = earlier ++ es ∧ w.taskId t = p ∧ v.groups.get? g.id = some i.group ∧
    i.claims = v.claims i.group.handles
  ends es p i ok := ∃ log w t o, Turns resume s w₀ log w ∧
    w.events s = earlier ++ (es ++ [.joinEnd p ok]) ∧ w.taskId t = p ∧
    (w.tasks.get? t).map Task.inbox = some (Outcome.input o) ∧
    w.Result i.group i.claims (Outcome.input o) ∧ ok = o.isOk

/-- Masked bodies join groups on the same occasions. -/
theorem occasions_masked (bodies : Bodies β σ) (depth : Nat) (earlier : List Event) :
    occasions (World.resume bodies.masked depth) s w₀ earlier =
      occasions (World.resume bodies depth) s w₀ earlier := by
  simp only [occasions, turns_masked, joins_masked]

section

variable (earlier : List Event) {i : Occasion} (h : i.claims.length = i.group.handles.length)

include h

theorem length_members : ((occasions resume s w₀ earlier).members i).length = i.group.handles.length := by
  show ((i.group.handles.map CoroutineRef.name).zip i.claims).length = _
  rw [List.length_zip, List.length_map, h, Nat.min_self]

theorem names_members : ((occasions resume s w₀ earlier).members i).map Prod.fst =
    i.group.handles.map CoroutineRef.name :=
  List.map_fst_zip (by rw [List.length_map, h])

theorem exists_member_of_claim {j : Nat} {claim : Option Failure} (hj : i.claims[j]? = some claim) :
    ∃ name, ((occasions resume s w₀ earlier).members i)[j]? = some (name, claim) := by
  have hlt : j < (i.group.handles.map CoroutineRef.name).length := by
    rw [List.length_map, ← h]
    exact (List.getElem?_eq_some_iff.mp hj).1
  exact ⟨_, List.getElem?_zip_eq_some.mpr ⟨List.getElem?_eq_getElem hlt, hj⟩⟩

end

end

/-- The events of a run so far are a story, after which its tasks are in the phases that the tables
show. -/
structure Narrated (bodies : Bodies β σ) (depth s : Nat) (w₀ : World β σ) (earlier : List Event) (r : Nat)
    (name : String) (log : List (CoroutineRef × Step)) (l : Standing) (w : World β σ) (es : List Event)
    (next : Nat) (st : Nat → Phase Occasion) : Prop where
  turns : Turns (resume bodies depth) s w₀ log w
  events : w.events s = earlier ++ es
  number : w.number? s = some next
  story : Story (occasions (resume bodies depth) s w₀ earlier) r name es next st
  distinct : ∀ {t u p q}, l t = some (s, p) → l u = some (s, q) → w.taskId t = w.taskId u → t = u
  phases : ∀ {t p}, l t = some (s, p) → w.InPhase s t (st (w.taskId t))
  outcomes : ∀ {t p index ok}, l t = some (s, p) → .taskEnd (w.taskId t) index ok ∈ es →
    (w.taskOutcome? t).map Outcome.isOk = some ok

namespace Narrated

variable {bodies : Bodies β σ} {depth s root r next n t u : Nat} {c : CoroutineRef} {w₀ v : World β σ}
  {earlier es new : List Event} {name : String} {log log' : List (CoroutineRef × Step)}
  {l l' : Standing} {base : Nat → Start} {st st' : Nat → Phase Occasion} {x : Task}
  {top : CoroutineRef} {frame : Frame} {step : Step} {p : Place}

section

variable (hf : Narrated bodies depth s w₀ earlier r name log l w es next st)

include hf

/-- The tasks of the run have numbers that are used. -/
theorem taskId_lt (ht : l t = some (s, p)) : w.taskId t < next :=
  (hf.story.numbered.used _ (hf.phases ht).used).2

variable (hp : w.Poised s root c l base) (h : Turn bodies depth s t l base w x top frame step v w')

include h

/-- The number of the task of a turn is its own. -/
theorem taskId_ne (hu : l u = some (s, p)) (hne : u ≠ t) : w.taskId u ≠ x.id := fun e =>
  hne (hf.distinct hu h.ready (e.trans (taskId_of_get? h.row).symm))

include hp

theorem eq_live : st x.id = .live := by
  rw [← taskId_of_get? h.row]
  exact hp.eq_live (hf.phases h.ready) h.ready

/-- The group that the turn leaves without a member to wait for settles. -/
theorem closes {g : GroupRef} {m : World β σ} {i : Occasion} {y : Task} {a first : Nat} {ts : List Nat}
    {st₁ : Nat → Phase Occasion} {q : Place}
    (hmore : Turns (resume bodies depth) s w₀ log' w') (hw' : w' = (m.closeGroup s g).2)
    (hreports : Reports s new n (v.modifyHandle top (·.left frame step)) m)
    (hstory : Story (occasions (resume bodies depth) s w₀ earlier) r name (es ++ new) (next + n) st₁)
    (ha : l a = some (s, q)) (hheld : m.Held g.id i.group a i.claims ts)
    (hclaims : i.claims.length = i.group.handles.length)
    (hq : m.quiescent g = true) (hy : m.tasks.get? a = some y) (hid : y.id = w.taskId a)
    (ho : y.outcome = none) (hctx : ∃ ctx, m.context? s = some ctx)
    (hwaits : st₁ (w.taskId a) = .waiting first i)
    (hover : ∀ k < i.group.handles.length, st₁ (first + k) = .ended) : ∃ ok,
      Reports s (new ++ [.joinEnd (w.taskId a) ok]) n (v.modifyHandle top (·.left frame step)) w' ∧
      Story (occasions (resume bodies depth) s w₀ earlier) r name
        (es ++ (new ++ [.joinEnd (w.taskId a) ok])) (next + n)
        (Function.update st₁ (w.taskId a) .live) ∧ w'.InPhase s a .live := by
  obtain ⟨o, hresult, hclose, hrow', hqueue⟩ := hheld.reports_closeGroup hclaims rfl hq hy hctx
  have hboth := hreports.trans hclose
  have hsteady : m.Steady (m.closeGroup s g).2 := .of_handles (handles_closeGroup ..)
  rw [← hw', taskId_of_get? hy, hid] at hboth
  rw [← hw'] at hrow' hqueue hsteady
  refine ⟨o.isOk, hboth, ?_, .live (by rw [taskOutcome?_of_get? hrow', ho]) hqueue⟩
  have hsize := length_members (resume bodies depth) s w₀ earlier hclaims
  rw [← List.append_assoc]
  refine hstory.more (.close hwaits (fun k hk => hover k (hsize ▸ hk)) ⟨log', w', a, o, hmore, ?_,
    h.taskId_eq hp (by simp [ha]), by rw [hrow']; rfl, hresult.mono hsteady, rfl⟩)
  rw [(h.told hboth).1, hf.events]
  simp

end

variable (hf : Narrated bodies depth s w₀ earlier r name log l w es next st)
  (hp : w.Poised s root c l base) (hp' : w'.Poised s root c l' base)
  (h : Turn bodies depth s t l base w x top frame step v w')
  (hmore : Turns (resume bodies depth) s w₀ log' w')

include hf hp hp' h hmore

/-- The story goes on with what a turn has reported, if it says what the turn has done. -/
theorem extend (hreports : Reports s new n (v.modifyHandle top (·.left frame step)) w')
    (hstory : Story (occasions (resume bodies depth) s w₀ earlier) r name (es ++ new) (next + n) st')
    (hold : ∀ {u p}, l u = some (s, p) → w'.InPhase s u (st' (w.taskId u)))
    (hnew : ∀ {u}, v.tasks.size ≤ u → w'.Fresh s u → ∃ j, u = v.tasks.size + j ∧
      w'.taskId u = next + j ∧ w'.InPhase s u (st' (next + j)))
    (hends : ∀ {q index ok}, .taskEnd q index ok ∈ new → q = x.id ∧ (w'.taskOutcome? t).map Outcome.isOk = some ok) :
    Narrated bodies depth s w₀ earlier r name log' l' w' (es ++ new) (next + n) st' := by
  obtain ⟨hevents, hnumber⟩ := h.told hreports
  -- the tasks of the run are those of before, under the numbers they had, and those of the turn
  have hcases : ∀ {u q}, l' u = some (s, q) →
      (∃ q', l u = some (s, q') ∧ w'.taskId u = w.taskId u ∧ w.taskId u < next) ∨
      ∃ j, u = v.tasks.size + j ∧ w'.taskId u = next + j ∧ w'.InPhase s u (st' (next + j)) := by
    intro u q hu
    rcases h.standing_cases hp hp' hu with ⟨q', hl⟩ | ⟨hle, hfresh⟩
    · exact .inl ⟨q', hl, h.taskId_eq hp (by simp [hl]), hf.taskId_lt hl⟩
    · exact .inr (hnew hle hfresh)
  refine ⟨hmore, ?events, ?number, hstory, fun {u u' q q'} hu hu' he => ?distinct, fun {u q} hu => ?phases,
    fun {u q index ok} hu he => ?outcomes⟩
  case events =>
    rw [hevents, hf.events, List.append_assoc]
  case number =>
    rw [hnumber, hf.number]
    rfl
  case distinct =>
    rcases hcases hu with ⟨_, hl, hid, hlt⟩ | ⟨j, rfl, hj, -⟩ <;>
      rcases hcases hu' with ⟨_, hl', hid', hlt'⟩ | ⟨j', rfl, hj', -⟩
    · exact hf.distinct hl hl' (hid.symm.trans (he.trans hid'))
    all_goals omega
  case phases =>
    rcases hcases hu with ⟨_, hl, hid, -⟩ | ⟨j, -, hj, hphase⟩
    · exact hid ▸ hold hl
    · exact hj ▸ hphase
  case outcomes =>
    rcases hcases hu with ⟨_, hl, hid, hlt⟩ | ⟨j, -, hj, -⟩ <;>
      rcases List.mem_append.mp he with he | he
    · -- an end that is told already is not that of the task of the turn
      have hout := hf.outcomes hl (hid ▸ he)
      by_cases e : u = t
      · subst e
        rw [taskOutcome?_of_get? h.row, h.outcome] at hout
        cases hout
      · rwa [h.taskOutcome?_eq hp (by simp [hl]) e]
    · obtain ⟨hx, hout⟩ := hends he
      by_cases e : u = t
      · rwa [e]
      · exact absurd (hid.symm.trans hx) (hf.taskId_ne h hl e)
    · have := (hf.story.about he rfl).2
      omega
    · have := hf.taskId_lt h.ready
      rw [taskId_of_get? h.row, ← (hends he).1] at this
      omega

/-- A turn of a task that goes on. -/
theorem goesOn (hends : ∀ o, step.outcome? = some o → x.chain ≠ [top])
    (hgroup : ∀ g, step = .await (.group g) → v.groupTaken g = true) :
    ∃ new, Narrated bodies depth s w₀ earlier r name log' l' w' (es ++ new) next st := by
  obtain ⟨new, hreports, hcase⟩ := h.reports_goesOn hends hgroup
  have hlive := hf.eq_live hp h
  have hstory : Story (occasions (resume bodies depth) s w₀ earlier) r name (es ++ new) next st := by
    rcases hcase with rfl | ⟨awaiting, rfl⟩
    · rw [List.append_nil]
      exact hf.story
    · exact hf.story.more (.suspend hlive awaiting)
  refine ⟨new, hf.extend hp hp' h hmore hreports hstory (fun {u q} hu => ?_)
    (fun hle hfresh => (h.not_fresh hgroup hle hfresh).elim) fun he => ?_⟩
  swap
  · rcases hcase with rfl | ⟨awaiting, rfl⟩ <;> simp at he
  by_cases e : u = t
  · rw [e, taskId_of_get? h.row, hlive]
    exact h.live hends hgroup
  · exact (h.inPhase_other hp hu e (hf.phases hu)).resolve_right fun ⟨hc, ⟨o, ho⟩, _⟩ => hends o ho hc

/-- A task ends that was the last member of its group, and the group settles. -/
theorem endsLast {m : World β σ} {o : Outcome} {g : GroupRef} (ho : step.outcome? = some o)
    (hreports : Reports s [.taskEnd x.id x.index o.isOk] 0 (v.modifyHandle top (·.left frame step)) m)
    (hrows : ∀ u, m.tasks.get? u = if u = t then some (Task.ended
      { x with state := .running, inbox := .start, chain := [] } o) else v.tasks.get? u)
    (hctx : ∃ ctx, m.context? s = some ctx) (hg : x.group = some g) (hq : m.quiescent g = true)
    (hw' : w' = (m.closeGroup s g).2) :
    ∃ new st', Narrated bodies depth s w₀ earlier r name log' l' w' (es ++ new) next st' := by
  have hfinish := hf.story.more (.finish (hf.eq_live hp h) x.index o.isOk)
  have hout : m.taskOutcome? t = some o := taskOutcome?_of_get? ((hrows t).trans (if_pos rfl))
  obtain ⟨y, a, q, hy, hmem, hawait, hlt, ha⟩ := hp.sound.grouped.parent h.ready h.row hg
  obtain ⟨hnone, first, z, claims, ts, hwaits, hheld, hclaims, hids⟩ :=
    hp.eq_waiting (hf.phases ha) ha hy hawait hmem (by simp [h.ready])
  have hheld' : m.Held g.id z a claims ts := (hw' ▸ h.held hp.sound hheld ha).of_closeGroup.1
  obtain ⟨ya, hya⟩ := hp.sound.exists_row (t := a) (by simp [ha])
  rw [taskOutcome?_of_get? hya] at hnone
  have hrow : m.tasks.get? a = some ya :=
    (hrows a).trans ((if_neg hlt.ne).trans (h.others hlt.ne (by simp [ha]) hya))
  -- all members are over now
  have hall : ∀ u ∈ ts, Function.update st x.id .ended (w.taskId u) = .ended := fun u hu => by
    by_cases e : u = t
    · rw [e, taskId_of_get? h.row, Function.update_self]
    · obtain ⟨q', hl⟩ := hp.sound.grouped.together hheld.group rfl ha hu
      rw [Function.update_of_ne (hf.taskId_ne h hl e)]
      refine (hf.phases hl).eq_ended ?_
      rw [← h.taskOutcome?_eq hp (by simp [hl]) e, hw', taskOutcome?_closeGroup]
      exact (hheld'.quiescent_iff hclaims rfl).mp hq u hu
  have hover : ∀ k < z.handles.length, Function.update st x.id .ended (first + k) = .ended := by
    intro k hk
    rw [← hheld.length hclaims] at hk
    have hu := List.getElem?_eq_getElem hk
    rw [← hids hu]
    exact hall _ (List.mem_of_getElem? hu)
  obtain ⟨ok, hboth, hstory, hlive⟩ := hf.closes hp h hmore hw' hreports hfinish ha hheld' hclaims hq
    hrow (taskId_of_get? hya).symm hnone hctx
    ((Function.update_of_ne (hf.taskId_ne h ha hlt.ne) ..).trans hwaits) hover
  refine ⟨_, _, hf.extend hp hp' h hmore hboth hstory (fun {u q'} hu => ?_)
    (fun hle hfresh => (h.not_fresh_of_outcome ho hle hfresh).elim) fun he => ?_⟩
  swap
  · obtain ⟨rfl, -, rfl⟩ : _ = x.id ∧ _ = x.index ∧ _ = o.isOk := by simpa using he
    exact ⟨rfl, by rw [hw', taskOutcome?_closeGroup, hout]; rfl⟩
  by_cases hua : u = a
  · subst hua
    rw [Function.update_self]
    exact hlive
  · rw [Function.update_of_ne fun e => hua (hf.distinct hu ha e)]
    by_cases hut : u = t
    · subst hut
      rw [taskId_of_get? h.row, Function.update_self]
      exact .ended (by rw [hw', taskOutcome?_closeGroup, hout]; rfl)
    · rw [Function.update_of_ne (hf.taskId_ne h hu hut)]
      refine (h.inPhase_other hp hu hut (hf.phases hu)).resolve_right ?_
      rintro ⟨-, -, ref, y', claims', ts', hg', hheld', -⟩
      cases hg.symm.trans hg'
      have := congrArg (Option.bind · Group.awaitedBy) (hheld'.group.symm.trans hheld.group)
      exact hua (Option.some.inj this)

/-- A task ends, and no group settles. -/
theorem endsAlone {o : Outcome} (ho : step.outcome? = some o)
    (hreports : Reports s [.taskEnd x.id x.index o.isOk] 0 (v.modifyHandle top (·.left frame step)) w')
    (hout : w'.taskOutcome? t = some o)
    (hquiet : ¬∃ g, x.group = some g ∧ w'.quiescent g = true) :
    ∃ new st', Narrated bodies depth s w₀ earlier r name log' l' w' (es ++ new) next st' := by
  have hfinish := hf.story.more (.finish (hf.eq_live hp h) x.index o.isOk)
  refine ⟨_, _, hf.extend hp hp' h hmore hreports hfinish (fun {u q'} hu => ?_)
    (fun hle hfresh => (h.not_fresh_of_outcome ho hle hfresh).elim) fun he => ?_⟩
  swap
  · obtain ⟨rfl, -, rfl⟩ : _ = x.id ∧ _ = x.index ∧ _ = o.isOk := by simpa using he
    exact ⟨rfl, by rw [hout]; rfl⟩
  by_cases hut : u = t
  · subst hut
    rw [taskId_of_get? h.row, Function.update_self]
    exact .ended (by rw [hout]; rfl)
  · rw [Function.update_of_ne (hf.taskId_ne h hu hut)]
    refine (h.inPhase_other hp hu hut (hf.phases hu)).resolve_right ?_
    rintro ⟨-, -, ref, y', claims', ts', hg', -, hq'⟩
    exact hquiet ⟨ref, hg', hq'⟩

/-- A turn in which a task ends, and with it the group of which it was the last member. -/
theorem ends (hc : x.chain = [top]) {o : Outcome} (ho : step.outcome? = some o) :
    ∃ new st', Narrated bodies depth s w₀ earlier r name log' l' w' (es ++ new) next st' := by
  obtain ⟨m, hreports, hrows, hctx, hw'⟩ := h.eq_ended hc ho
  by_cases hquiet : ∃ g, x.group = some g ∧ m.quiescent g = true
  · obtain ⟨g, hg, hq⟩ := hquiet
    rw [hg, Option.elim_some] at hw'
    exact hf.endsLast hp hp' h hmore ho hreports hrows hctx hg hq hw'
  · have hsame : w' = m := by
      rw [hw']
      cases hg : x.group with
      | none => rfl
      | some g =>
          have hq : m.quiescent g = false := Bool.eq_false_iff.mpr fun hq => hquiet ⟨g, hg, hq⟩
          simp [World.closeGroup, hq]
    subst hsame
    exact hf.endsAlone hp hp' h hmore ho hreports (taskOutcome?_of_get? ((hrows t).trans (if_pos rfl)))
      hquiet

/-- A turn in which a task joins a group. -/
theorem joins (hb : bodies.Orderly) {g : GroupRef} (hstep : step = .await (.group g))
    (hfree : v.groupTaken g = false) : ∃ new next' st',
      Narrated bodies depth s w₀ earlier r name log' l' w' (es ++ new) next' st' := by
  subst hstep
  have hj := h.joins rfl hfree
  have hid : w.taskId t = x.id := taskId_of_get? h.row
  have hlt : x.id < next := hid ▸ hf.taskId_lt h.ready
  have hmine := Table.lt_size_of_get? h.mine
  obtain ⟨y, m, hy, hm, hw'⟩ := h.eq_enlisted rfl hfree ((congrArg Prod.snd h.counts.2).trans hf.number)
  obtain ⟨-, -, y', ts, -, -, hy', hwaited⟩ := hp.joins hb hj
  cases hy.symm.trans hy'
  let i : Occasion := ⟨y, (v.modifyHandle top (·.left frame (.await (.group g)))).claims y.handles⟩
  have hlength : i.claims.length = i.group.handles.length := length_claims ..
  have hv : (v.modifyHandle top (·.left frame (.await (.group g)))).taskId t = x.id :=
    (taskId_of_get? h.mine :)
  have hreports := hm.reports
  rw [hv] at hreports
  have hjoin := hf.story.more (.join (i := i) (hf.eq_live hp h)
    ⟨log, w, t, top, g, _, w', hf.turns, hj, hf.events, hid, hy, rfl⟩)
  rw [length_members _ s w₀ earlier hlength, names_members _ s w₀ earlier hlength] at hjoin
  have henroll : ∀ {j claim}, i.claims[j]? = some claim → Story.enroll (occasions (resume bodies depth) s w₀
      earlier) st x.id next i (next + j) = if claim = none then .live else .ended := fun hclaim =>
    let ⟨_, hmember⟩ := exists_member_of_claim _ s w₀ earlier hlength hclaim
    Story.enroll_member hlt hmember
  have hothers : ∀ {u q}, l u = some (s, q) → u ≠ t → w'.InPhase s u
      (Story.enroll (occasions (resume bodies depth) s w₀ earlier) st x.id next i (w.taskId u)) :=
    fun hu hne => by
      rw [Story.enroll_of_lt (hf.taskId_lt hu) (hf.taskId_ne h hu hne)]
      exact (h.inPhase_other hp hu hne (hf.phases hu)).resolve_right fun ⟨_, ⟨_, ho⟩, _⟩ => nomatch ho
  have hnew : ∀ {u}, v.tasks.size ≤ u → w'.Fresh s u → ∃ j, u = v.tasks.size + j ∧
      w'.taskId u = next + j ∧ w'.InPhase s u
        (Story.enroll (occasions (resume bodies depth) s w₀ earlier) st x.id next i (next + j)) := by
    intro u hle hfresh
    obtain ⟨j, claim, hu, hclaim, hid, hphase⟩ := hm.inPhase_member hmine hle (hw' ▸ hfresh)
    exact ⟨j, hu, hw' ▸ hid, by rw [henroll hclaim, hw']; exact hphase⟩
  cases hq : m.quiescent g with
  | false =>
      -- a member is left to wait for
      have hsame : w' = m := by rw [hw', World.closeGroup, hq]; rfl
      subst hsame
      refine ⟨_, _, _, hf.extend hp hp' h hmore hreports hjoin (fun {u q} hu => ?_) hnew
        fun he => by simp [taskEnd_notMem_spawns] at he⟩
      by_cases hut : u = t
      · subst hut
        rw [hid, Story.enroll_self]
        exact hm.inPhase_waiting hwaited hq
      · exact hothers hu hut
  | true =>
      -- every member was refused, and the group settles in the turn that opens it
      obtain ⟨hsize', hmid⟩ := hreports.ids t hmine
      obtain ⟨z, hz⟩ := Table.exists_get? hsize'
      have hnone := hwaited.taskOutcome?_eq_none
      rw [hw', taskOutcome?_closeGroup, taskOutcome?_of_get? hz] at hnone
      rw [taskId_of_get? hz] at hmid
      obtain ⟨ok, hboth, hstory, hlive⟩ := hf.closes hp h hmore hw' hreports hjoin h.ready hm.held hlength hq
        hz (hmid.trans (hv.trans hid.symm)) hnone (hm.touches.active h.active)
        (by rw [hid, Story.enroll_self]) fun k hk => by
          have hclaim := List.getElem?_eq_getElem (hlength ▸ hk : k < i.claims.length)
          rw [henroll hclaim, if_neg (hm.refused hq hclaim)]
      refine ⟨_, _, _, hf.extend hp hp' h hmore hboth hstory (fun {u q} hu => ?_) (fun {u} hle hfresh => ?_)
        fun he => by simp [taskEnd_notMem_spawns] at he⟩
      · by_cases hut : u = t
        · subst hut
          rw [Function.update_self]
          exact hlive
        · rw [hid, Function.update_of_ne (hf.taskId_ne h hu hut)]
          exact hothers hu hut
      · obtain ⟨j, hj, hju, hphase⟩ := hnew hle hfresh
        refine ⟨j, hj, hju, ?_⟩
        rw [hid, Function.update_of_ne (by omega)]
        exact hphase

/-- **Every turn of a run goes on with the story.** -/
theorem turn (hb : bodies.Orderly) : ∃ new next' st',
    Narrated bodies depth s w₀ earlier r name log' l' w' (es ++ new) next' st' := by
  by_cases hjoin : ∃ g, step = .await (.group g) ∧ v.groupTaken g = false
  · obtain ⟨g, hstep, hfree⟩ := hjoin
    exact hf.joins hp hp' h hmore hb hstep hfree
  · by_cases hend : ∃ o, step.outcome? = some o ∧ x.chain = [top]
    · obtain ⟨o, ho, hc⟩ := hend
      obtain ⟨new, st', hf'⟩ := hf.ends hp hp' h hmore hc ho
      exact ⟨new, _, st', hf'⟩
    · obtain ⟨new, hf'⟩ := hf.goesOn hp hp' h hmore (fun o ho hc => hend ⟨o, ho, hc⟩) fun g hg =>
        (Bool.not_eq_false _).mp fun hfree => hjoin ⟨g, hg, hfree⟩
      exact ⟨new, _, _, hf'⟩

end Narrated

section

variable {bodies : Bodies β σ} {depth s root r next : Nat} {c : CoroutineRef} {w₀ : World β σ}
  {earlier es : List Event} {name : String} {log : List (CoroutineRef × Step)} {l : Standing}
  {base : Nat → Start} {st : Nat → Phase Occasion}

/-- A run that starts is the beginning of a story. -/
theorem Sound.narrated (h : w.Sound l base none) (hs : w.start s c = (.ok root, w')) (bodies : Bodies β σ)
    (depth : Nat) : ∃ r l' base', w'.Poised s root c l' base' ∧ w'.taskId root = r ∧
      w.number? s = some r ∧ Narrated bodies depth s w' (w.events s) r c.name [] l' w'
        [.runStart c.name] (r + 1) (Function.update (fun _ => .unused) r .live) := by
  rcases h.start s c with ⟨f, v, he, -⟩ | ⟨v, he, hidle, hsound⟩
  · cases hs.symm.trans he
  · cases hs.symm.trans he
    have hp : w'.Poised s w.tasks.size c (l.set w.tasks.size s .ready)
        (Function.update base s ⟨w.tasks.size, c⟩) :=
      ⟨hsound, Standing.calm_set_ready hidle _, hsound.queued.active (Standing.set_self ..),
        Function.update_self ..⟩
    have hroot : l.set w.tasks.size s .ready w.tasks.size = some (s, .ready) := Standing.set_self ..
    -- nothing else stands in the run
    have honly : ∀ {u p}, l.set w.tasks.size s .ready u = some (s, p) → u = w.tasks.size := by
      intro u p hu
      by_contra hne
      rw [Standing.set_of_ne _ _ _ hne] at hu
      exact hidle u p hu
    obtain ⟨es, n, hreports, hok⟩ := Reports.start w s c
    rw [hs] at hreports hok
    obtain ⟨rfl, rfl, hid⟩ := hok _ rfl
    have hnumber : ∃ r, w.number? s = some r := by
      cases hactive : w.isActive s with
      | true => simp [World.start, hactive] at hs
      | false =>
          obtain ⟨⟨z, hz⟩, -⟩ := idle_of_isActive hactive
          exact ⟨z.nextTask, by rw [number?, hz]; rfl⟩
    obtain ⟨r, hr⟩ := hnumber
    rw [hr, Option.getD_some] at hid
    refine ⟨r, _, _, hp, hid, hr, .refl, hreports.self.1, ?_, .start, fun hu hu' _ => ?_, fun {u p} hu => ?_,
      fun _ he => by simp at he⟩
    · rw [hreports.self.2, hr]
      rfl
    · rw [honly hu, honly hu']
    · rw [honly hu, hid, Function.update_self]
      obtain ⟨ctx, hctx⟩ := hp.active
      refine .live ?_ ⟨ctx, hctx, (hsound.queued.ready hctx _).mpr hroot⟩
      rw [← Option.not_isSome_iff_eq_none, hp.outcome_iff hroot]
      intro h
      cases h

/-- **The events that a run has reported at any of its turns are a story.** -/
theorem Narrated.run {log' : List (CoroutineRef × Step)}
    (h : Narrated bodies depth s w₀ earlier r name log l w es next st) (hp : w.Poised s root c l base)
    (hb : bodies.Orderly)
    (ht : Turns (resume bodies depth) s w log' w') : ∃ l' new next' st', w'.Poised s root c l' base ∧
      Narrated bodies depth s w₀ earlier r name (log ++ log') l' w' (es ++ new) next' st' ∧
      w'.taskId root = w.taskId root ∧
      ∃ n limit, w.gauge s = some (some n, limit) ∧ w'.gauge s = some (some (n + log'.length), limit) := by
  induction ht with
  | refl =>
      refine ⟨l, [], next, st, hp, by simpa using h, rfl, ?_⟩
      obtain ⟨ctx, hctx⟩ := hp.active
      obtain ⟨z, hz, hzc⟩ := Option.bind_eq_some_iff.mp hctx
      exact ⟨ctx.steps, z.maxSteps, by simp [gauge, hz, hzc], by simp [gauge, hz, hzc]⟩
  | more hturns hd hs ih =>
      obtain ⟨l₁, new, next₁, st₁, hp₁, hf₁, hid, n, limit, hn, hn₁⟩ := ih
      obtain ⟨l₂, hp₂, -, x, top, frame, step, v, hturn, hlog⟩ := hp₁.apart hb hd hs
      obtain ⟨new₂, next₂, st₂, hf₂⟩ := hf₁.turn hp₁ hp₂ hturn (hf₁.turns.more hd hs) hb
      obtain ⟨⟨k, limit', hk, hk'⟩, -⟩ := hturn.counts
      cases hn₁.symm.trans hk
      obtain ⟨ctx, hctx⟩ := hp₁.active
      obtain ⟨p, hroot⟩ := hp₁.sound.queued.root hctx
      rw [hp₁.root_eq hctx] at hroot
      refine ⟨l₂, new ++ new₂, next₂, st₂, hp₂, by simpa using hf₂,
        (hturn.taskId_eq hp₁ (by simp [hroot])).trans hid, n, limit, hn, ?_⟩
      rw [hk', hlog, List.length_append, List.length_singleton, ← Nat.add_assoc]

end

end World

end Coroutines
