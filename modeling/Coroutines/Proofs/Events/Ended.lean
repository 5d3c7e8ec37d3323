import Coroutines.Proofs.Events.Runs
import Coroutines.Proofs.Joining.Orphans
import Coroutines.Proofs.Progress.Complete
import Mathlib.Algebra.BigOperators.Group.Finset.Basic

/-!
# What a run that has ended has told

The events of a run whose root has an outcome are a story from the start of the run to its end: every join
is a bracket, every end of a join closes one, and the end of the root is the last that is told of any task
(`WellTold`).  The number of resumes that the run reports is made up of those of its coroutines, each of
which has awaited something some number of times and then ended (`World.Poised.resumes_eq`).
-/

namespace Coroutines

/-- The events of a run whose root has ended, well or not, after a number of resumes. -/
structure WellTold {ι : Type} (J : Occasions ι) (root : Nat) (name : String) (ok : Bool) (steps : Nat)
    (es : List Event) : Prop where
  /-- The start of the run is told first, the end of the root and that of the run last, each of them once. -/
  framed : ∃ body index,
    es = .runStart name :: (body ++ [.taskEnd root index ok, .runEnd ok steps]) ∧
      ∀ e ∈ body, e.task? ≠ none ∧ ¬ e.Ends root
  numbered : ∀ e ∈ es, ∀ q, e.task? = some q → root ≤ q
  joins : ∀ pre p n post, es = pre ++ .joinStart p n :: post →
    ∃ i first mid ok rest, Story.Bracketed J pre p n post i first mid ok rest
  /-- The end of a join is that of the last join that its task began. -/
  ends : ∀ pre p ok post, es = pre ++ .joinEnd p ok :: post →
    ∃ pre' n mid, pre = pre' ++ .joinStart p n :: mid ∧ Silent p mid
  /-- A new task is that of the member at its place in the join that is told of just before. -/
  spawned : ∀ pre q k name post, es = pre ++ .taskSpawn q k name :: post →
    ∃ pre' p i mid, pre = pre' ++ .joinStart p (J.members i).length :: mid ∧ J.starts pre' p i ∧
      mid.length = k ∧ k < (J.members i).length

namespace Story

variable {ι : Type} {J : Occasions ι} {es pre mid post rest : List Event} {next root p n first : Nat}
  {st : Nat → Phase ι} {i : ι} {name : String} {ok : Bool}

/-- What is told of no task may follow a bracket. -/
theorem Bracketed.concat {e : Event} (h : Bracketed J pre p n post i first mid ok rest)
    (he : e.task? = none) : Bracketed J pre p n (post ++ [e]) i first mid ok (rest ++ [e]) := by
  have hsilent : ∀ {q}, Silent q rest → Silent q (rest ++ [e]) := fun hq =>
    hq.append fun d hd => by
      rw [List.mem_singleton.mp hd, he]
      nofun
  refine { h with told := by simp [h.told], claimed := fun k name hk => ?_, refused := fun k name f hk => ?_ }
  · exact (h.claimed k name hk).imp_right hsilent
  · exact (h.refused k name f hk).imp_right hsilent

/-- **A story that has come to the end of its root is well told.** -/
theorem wellTold (h : Story J root name es next st) (hroot : st root = .ended)
    (hok : ∀ {index ok'}, .taskEnd root index ok' ∈ es → ok' = ok) (steps : Nat) :
    WellTold J root name ok steps (es ++ [.runEnd ok steps]) := by
  -- an event that is not the end of the run is told in the story
  have hwithin : ∀ {e pre post}, es ++ [.runEnd ok steps] = pre ++ e :: post → e ≠ .runEnd ok steps →
      ∃ post', es = pre ++ e :: post' ∧ post = post' ++ [.runEnd ok steps] := by
    intro e pre post he hne
    rcases append_eq_append_cons he with hes | ⟨pre', -, hlast⟩
    · exact hes
    · cases pre' with
      | nil => exact absurd (List.cons.inj hlast).1.symm hne
      | cons d pre' => simp at hlast
  refine ⟨?framed, fun e he q hq => ?numbered, fun pre p n post he => ?joins, fun pre p ok' post he => ?ends,
    fun pre q k m post he => ?spawned⟩
  case framed =>
    obtain ⟨before, index, ok', hes, hbefore⟩ := h.exists_end hroot
    obtain ⟨body, hstart, hbody⟩ := h.exists_body
    obtain rfl := hok (hes ▸ List.mem_concat_self)
    cases before with
    | nil =>
        rw [hes] at hstart
        cases hstart
    | cons d before =>
        obtain ⟨rfl, rfl⟩ := List.cons.inj (hes.symm.trans hstart)
        refine ⟨before, index, by simp [hes], fun e he => ⟨hbody e ?_, hbefore e ?_⟩⟩
        · exact List.mem_append_left _ he
        · exact List.mem_cons_of_mem _ he
  case numbered =>
    rcases List.mem_append.mp he with he | he
    · exact (h.about he hq).1
    · rw [List.mem_singleton.mp he] at hq
      cases hq
  case joins =>
    obtain ⟨post', hes, rfl⟩ := hwithin he nofun
    obtain ⟨i, first, mid, ok', rest, hbracket⟩ := h.bracketed hroot hes
    exact ⟨i, first, mid, ok', _, hbracket.concat rfl⟩
  case ends =>
    obtain ⟨post', hes, -⟩ := hwithin he nofun
    exact h.exists_start_of_end hes
  case spawned =>
    obtain ⟨post', hes, -⟩ := hwithin he nofun
    exact h.exists_join_of_spawn hes

end Story

namespace World

variable {β σ : Type} {w w' : World β σ} {l : Standing} {base : Nat → Start}

/-! ### The resumes of a coroutine -/

/-- How often a log says that a coroutine came to await something. -/
def awaits (log : List (CoroutineRef × Step)) (i : Nat) : Nat :=
  log.countP fun e => e.1.id = i ∧ e.2.outcome? = none

/-- How often a log says that a coroutine ended. -/
def endings (log : List (CoroutineRef × Step)) (i : Nat) : Nat :=
  log.countP fun e => e.1.id = i ∧ e.2.outcome? ≠ none

theorem resumes_eq_add (log : List (CoroutineRef × Step)) (i : Nat) :
    resumes log i = awaits log i + endings log i := by
  rw [resumes, List.countP_eq_countP_filter_add log _ (fun e => e.2.outcome? = none), List.countP_filter,
    List.countP_filter]
  exact congrArg₂ _ (List.countP_congr fun e _ => by simp) (List.countP_congr fun e _ => by simp)

theorem endings_concat (log : List (CoroutineRef × Step)) (d : CoroutineRef) (step : Step) (i : Nat) :
    endings (log ++ [(d, step)]) i =
      endings log i + if d.id = i ∧ step.outcome? ≠ none then 1 else 0 := by
  simp [endings, List.countP_append, List.countP_cons]

/-- The resumes that a log tells of add up from those of its coroutines. -/
theorem length_eq_sum_toFinset (log : List (CoroutineRef × Step)) :
    log.length = ∑ i ∈ (log.map (·.1.id)).toFinset, resumes log i := by
  rw [← List.length_map (f := fun e : CoroutineRef × Step => e.1.id), ← List.sum_toFinset_count_eq_length]
  refine Finset.sum_congr rfl fun i _ => ?_
  rw [List.count, List.countP_map, resumes]
  exact List.countP_congr fun e _ => by simp

section

variable {bodies : Bodies β σ} {depth s root : Nat} {c : CoroutineRef}
  {log : List (CoroutineRef × Step)}

/-- A coroutine that was resumed in a run has not ended, and a task of the run has it in its chain, or it
has ended once and is done with. -/
theorem Poised.endings_turns (hb : bodies.Orderly) (h : w.Poised s root c l base)
    (ht : Turns (resume bodies depth) s w log w') {i : Nat} (hi : i ∈ log.map (·.1.id)) :
    endings log i = 0 ∧ (∃ d, d.id = i ∧ w'.Claimed root d) ∨
      endings log i = 1 ∧ ∃ x, w'.handles.get? i = some x ∧ x.status.isFixed = true := by
  induction ht with
  | refl => cases hi
  | @more t log w₁ w₂ w₃ hturns hd hs ih =>
      obtain ⟨⟨l₁, hp₁⟩, -⟩ := h.claimed_turns hb hturns
      obtain ⟨-, -, -, x, top, frame, step, v, hturn, hlog⟩ := hp₁.apart hb hd hs
      obtain ⟨hsteady, ⟨z, hz, hfree⟩, hfixed⟩ := turn_resumes hd hs hlog
      have hstand : ∀ {u}, w₁.TaskOf root u → l₁ u ≠ none := fun hu => by
        obtain ⟨p, hp⟩ := hp₁.standing_of_taskOf hu
        simp [hp]
      rw [hlog, List.map_append, List.mem_append] at hi
      rw [hlog, endings_concat]
      by_cases e : i = top.id
      · subst e
        -- the coroutine of the turn had not ended before
        have hnone : endings log top.id = 0 := by
          by_cases hmem : top.id ∈ log.map (·.1.id)
          · rcases ih hmem with ⟨hnone, -⟩ | ⟨-, y, hy, hfix⟩
            · exact hnone
            · cases hz.symm.trans hy
              rw [hfree] at hfix
              cases hfix
          · exact List.countP_eq_zero.mpr fun e he hend =>
              hmem (List.mem_map.mpr ⟨e, he, (by simpa using hend : _ ∧ _).1⟩)
        obtain ⟨rest, hchain⟩ := hturn.chain
        have htask := hp₁.taskOf_of_standing hturn.ready
        have hclaimed : w₁.Claimed root top := ⟨t, x, htask, hturn.row, by simp [hchain]⟩
        cases ho : step.outcome? with
        | none =>
            refine .inl ⟨by simp [hnone], top, rfl, ?_⟩
            refine (hturn.claimed hstand hclaimed).resolve_right fun ⟨_, o, ho', _⟩ => ?_
            rw [ho] at ho'
            cases ho'
        | some o =>
            refine .inr ⟨by simp [hnone], hfixed fun target e => ?_⟩
            subst e
            cases ho
      · have hmem := hi.resolve_right (by simp [e])
        rw [if_neg fun he => e he.1.symm]
        rcases ih hmem with ⟨hnone, d, rfl, hclaimed⟩ | ⟨hone, y, hy, hfix⟩
        · refine .inl ⟨hnone, d, rfl, (hturn.claimed hstand hclaimed).resolve_right ?_⟩
          rintro ⟨rfl, -⟩
          exact e rfl
        · obtain ⟨y', hy', hsame, -⟩ := hsteady hy hfix
          exact .inr ⟨hone, y', hy', hsame ▸ hfix⟩

/-- **Once the root has ended, every coroutine that the run resumed has ended**, after it has awaited
something some number of times. -/
theorem Poised.resumes_eq (hb : bodies.Orderly) (h : w.Poised s root c l base)
    (ht : Turns (resume bodies depth) s w log w') (hout : (w'.taskOutcome? root).isSome = true) {i : Nat}
    (hi : i ∈ log.map (·.1.id)) : resumes log i = awaits log i + 1 := by
  obtain ⟨⟨l', hp'⟩, -⟩ := h.claimed_turns hb ht
  rw [resumes_eq_add]
  rcases h.endings_turns hb ht hi with ⟨-, d, -, t, x, htask, hx, hmem⟩ | ⟨hone, -⟩
  · -- a task that has ended has nothing in its chain
    obtain ⟨y, hy, hh⟩ := hp'.sound.chained.holds (hp'.ended_of_outcome hout htask)
    cases hx.symm.trans hy
    rw [hh.empty.mpr rfl] at hmem
    cases hmem
  · rw [hone]

/-! ### The run as a whole -/

/-- A loop that ends with an empty queue ends with an outcome of the root. -/
theorem Poised.outcome_of_drain (hb : bodies.Orderly) (h : w.Poised s root c l base) {m : Nat}
    (hd : drain (resume bodies depth) s m w = (.ok (), w')) :
    ∃ log, Turns (resume bodies depth) s w log w' ∧ (w'.taskOutcome? root).isSome = true := by
  obtain ⟨log, w₁, hturns, ⟨he, hidle⟩ | he | ⟨t, e, w₂, w₃, -, -, he⟩⟩ :=
    drain_cases (resume bodies depth) s m w
  · cases he.symm.trans hd
    obtain ⟨l', hp'⟩ := h.turns (resumesSound hb depth) hturns
    have hunstuck : w'.Unstuck bodies depth s root := hp'.unstuck hb.masked
    exact ⟨log, hturns, hunstuck.concluded hidle⟩
  · cases he.symm.trans hd
  · cases he.symm.trans hd

/-- **A run that ends by the outcome of its root has told a story.**  Its events, from the start of the run
on, are well told, and say truly how its root ended and how many resumes it made; these are made up of the
awaits of the coroutines that it resumed, and of one resume more of each.  The bodies touch coroutines by
running and grouping them only; they may fail with errors of the host elsewhere. -/
theorem run_well_told (hb : bodies.masked.Orderly) {α : Type} {action : Action β σ α}
    (ha : action.masked.Orderly)
    {limits : List (Option Number)} {shared : σ} {fuel m : Nat}
    (ho : Opens bodies action fuel (World.initial limits shared) s c depth root w)
    (hd : drain (resume bodies depth) s m w = (.ok (), w')) :
    ∃ log earlier o es, Turns (resume bodies depth) s w log w' ∧
      w.events s = earlier ++ [.runStart c.name] ∧
      w'.taskOutcome? root = some o ∧ (w'.conclude s root c).1 = o.mapError .script ∧
      (w'.conclude s root c).2.events s = earlier ++ es ∧
      WellTold (occasions (resume bodies depth) s w earlier) (w.taskId root) c.name o.isOk log.length es ∧
      (∀ i ∈ log.map (·.1.id), resumes log i = awaits log i + 1) ∧
      log.length = ∑ i ∈ (log.map (·.1.id)).toFinset, (awaits log i + 1) := by
  obtain ⟨w₀, l₀, base₀, hsound, hs⟩ :=
    (Sound.initial limits shared fun _ => ⟨0, c⟩).opened hb ha ho.masked
  obtain ⟨r, l₁, base₁, hp, hid, -, hnarrated⟩ := hsound.narrated hs bodies.masked depth
  obtain ⟨log, hturns, hout⟩ := hp.outcome_of_drain hb (drain_masked.mpr hd)
  obtain ⟨l', new, next, st, hp', hnarrated', hid', n, limit, hgauge, hgauge'⟩ :=
    hnarrated.run hp hb hturns
  obtain ⟨o, ho'⟩ := Option.isSome_iff_exists.mp hout
  have hroot : ∃ p, l' root = some (s, p) := by
    obtain ⟨ctx, hctx⟩ := hp'.active
    exact hp'.root_eq hctx ▸ hp'.sound.queued.root hctx
  obtain ⟨p, hroot⟩ := hroot
  have hended := (hnarrated'.phases hroot).eq_ended hout
  rw [hid', hid] at hended
  -- the run counted from zero
  have hzero : n = 0 := by
    have hstart := gauge_start w₀ s s c
    rw [hs, hgauge] at hstart
    cases e : w₀.gauge s with
    | none => simp [e, Except.isOk, Except.toBool] at hstart
    | some y => simpa [e, Except.isOk, Except.toBool] using congrArg (Option.map Prod.fst) hstart
  subst hzero
  have hsteps : ((w'.context? s).map RunContext.steps).getD 0 = log.length :=
    (steps_of_gauge hgauge').trans (Nat.zero_add _)
  have hconclude : w'.conclude s root c = (o.mapError .script, w'.emit s (.runEnd o.isOk log.length)) := by
    simp only [World.conclude, ho', hsteps]
  have hok : ∀ {index ok}, .taskEnd r index ok ∈ [.runStart c.name] ++ new → ok = o.isOk := by
    intro index ok he
    rw [← hid, ← hid'] at he
    have hok := hnarrated'.outcomes hroot he
    rw [ho'] at hok
    exact (Option.some.inj hok).symm
  have hstory := hnarrated'.story
  rw [occasions_masked] at hstory
  refine ⟨log, _, o, _, turns_masked.mp hturns, hnarrated.events, ho', by rw [hconclude], ?_,
    hid ▸ hstory.wellTold hended hok log.length, ?_, ?_⟩
  · rw [hconclude, (Reports.emit w' s (.runEnd o.isOk log.length)).self.1, hnarrated'.events]
    simp
  · exact fun i hi => hp.resumes_eq hb hturns hout hi
  · rw [length_eq_sum_toFinset]
    exact Finset.sum_congr rfl fun i hi => hp.resumes_eq hb hturns hout (List.mem_toFinset.mp hi)

end

/-- What the run of the gathering coroutine tells. -/
def gatheringEvents : List Event :=
  [.runStart "main", .joinStart 1 1, .taskSpawn 2 0 "child", .taskEnd 2 0 true, .joinEnd 1 true,
    .taskEnd 1 0 true, .runEnd true 3]

/-- The run of the gathering coroutine is well told: its member ends within the bracket of the join. -/
theorem gathering_well_told : drain (resume gathering 1) 0 4 gatheringStarts = (.ok (), gatheringEnds) ∧
    (gatheringEnds.conclude 0 0 ⟨0, "main"⟩).2.events 0 = gatheringEvents ∧
    WellTold (occasions (resume gathering 1) 0 gatheringStarts []) 1 "main" true 3 gatheringEvents := by
  have hd : drain (resume gathering 1) 0 4 gatheringStarts = (.ok (), gatheringEnds) := rfl
  have hevents : (gatheringEnds.conclude 0 0 ⟨0, "main"⟩).2.events 0 = gatheringEvents := by
    decide +kernel
  obtain ⟨log, earlier, o, es, -, hstart, -, -, hes, htold, -⟩ :=
    run_well_told gathering_orderly.masked runGathering_orderly.masked opens_gathering hd
  have hearlier : earlier = [] := by
    have : gatheringStarts.events 0 = [.runStart "main"] := by decide +kernel
    simpa [this] using hstart
  subst hearlier
  obtain rfl : gatheringEvents = es := hevents.symm.trans hes
  obtain ⟨body, index, hframe, -⟩ := htold.framed
  -- the last event gives the outcome and the number of resumes
  have hlast := congrArg List.getLast? hframe
  rw [List.getLast?_cons, List.getLast?_append] at hlast
  obtain ⟨hok, hsteps⟩ : true = o.isOk ∧ 3 = log.length := by simpa [gatheringEvents] using hlast
  rw [← hok, ← hsteps] at htold
  exact ⟨hd, hevents, htold⟩

end World

end Coroutines
