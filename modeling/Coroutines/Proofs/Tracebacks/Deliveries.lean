import Coroutines.Proofs.Checked.Laws
import Coroutines.Proofs.Crashes
import Coroutines.Proofs.Tracebacks.Aftermath
import Coroutines.Proofs.Tracebacks.History

/-!
# Exceptions on their way to the root

Between two turns of a run, the history of the run knows the scopes of every exception that a task has
failed with or is to be handed (`Told`): each turn hands on the exception of its coroutine inside the task,
or out of the group to the task that awaits it.  So the frames of the exception that a run ends with stand
in the scopes that its history gives (`Sound.scopes_runWith`), as soon as every resume accounts for what it
adds itself (`Accounts`).
-/

namespace Coroutines

/-- Only a step that raises an exception comes to it. -/
theorem Step.eq_raise_of_outcome? {step : Step} {r : Record} (h : step.outcome? = some (.error r)) :
    step = .raise r := by
  cases step with
  | raise r' =>
      cases h
      rfl
  | _ => cases h

namespace World

variable {β σ : Type} {w w' w₁ w₂ : World β σ} {l : Standing} {base : Nat → Start} {s t root u : Nat}
  {c : CoroutineRef} {own : Episode β σ → List String → List String} {past : List (Episode β σ)}

/-! ### The failure of a group -/

theorem SlotOutcome.unique {c : CoroutineRef} {claim : Option Failure} {o o' : Outcome}
    (h : w.SlotOutcome c claim o) (h' : w.SlotOutcome c claim o') : o = o' := by
  cases claim with
  | some f => exact h.trans (Eq.symm h')
  | none =>
      obtain ⟨x, hx, -, ho⟩ := h
      obtain ⟨x', hx', -, ho'⟩ := h'
      cases hx.symm.trans hx'
      exact Option.some.inj (ho.symm.trans ho')

/-- Tasks of slots that have all ended have the outcomes of the slots. -/
theorem taskOutcomes_of_slots {ps : List (CoroutineRef × Option Failure)} {ts : List Nat}
    {os : List Outcome} (h : List.Forall₂ (fun p u => w.Slot u p.1 p.2) ps ts)
    (hos : List.Forall₂ (fun p o => w.SlotOutcome p.1 p.2 o) ps os)
    (hall : ∀ u ∈ ts, (w.taskOutcome? u).isSome = true) :
    List.Forall₂ (fun u o => w.taskOutcome? u = some o) ts os := by
  induction h generalizing os with
  | nil =>
      cases hos
      exact .nil
  | @cons p u ps ts hslot _ ih =>
      cases hos with
      | cons ho hrest =>
          obtain ⟨o', ho'⟩ := Option.isSome_iff_exists.mp (hall u List.mem_cons_self)
          refine .cons (ho'.trans (congrArg some ((hslot.outcome ho').unique ho))) ?_
          exact ih hrest fun v hv => hall v (List.mem_cons_of_mem u hv)

/-- The first task that failed is the one with the first outcome that is no value. -/
theorem find?_failed {ts : List Nat} {vs : List Value} {r : Record} {rest : List Outcome}
    (h : List.Forall₂ (fun u o => w.taskOutcome? u = some o) ts (vs.map .ok ++ .error r :: rest)) :
    ∃ u ∈ ts, (ts.find? fun u => (w.taskOutcome? u).any (!·.isOk)) = some u ∧
      w.taskOutcome? u = some (.error r) := by
  induction vs generalizing ts with
  | nil =>
      cases h with
      | @cons u _ ts _ ho _ =>
          refine ⟨u, List.mem_cons_self, List.find?_cons_of_pos ?_, ho⟩
          rw [ho]
          rfl
  | cons v vs ih =>
      cases h with
      | @cons u _ ts _ ho hrest =>
          obtain ⟨u', hmem, hfind, hout⟩ := ih hrest
          refine ⟨u', List.mem_cons_of_mem u hmem, ?_, hout⟩
          rw [List.find?_cons_of_neg, hfind]
          rw [ho]
          exact Bool.false_ne_true

/-- A group hands on the failure of its first member that failed. -/
theorem Waited.firstFailed {g : GroupRef} {x : Group} {claims : List (Option Failure)} {ts : List Nat}
    {top : CoroutineRef} {r : Record} (h : w.Waited s g x t claims ts top)
    (hclaims : claims.length = x.handles.length) (hq : w.quiescent g = true)
    (hresult : w.Result x claims (.throw r)) :
    ∃ u ∈ ts, w.firstFailed? g = some u ∧ w.taskOutcome? u = some (.error r) := by
  obtain ⟨os, o, hos, hjoined, ho⟩ := hresult
  have hout := taskOutcomes_of_slots h.held.slots hos ((h.held.quiescent_iff hclaims rfl).mp hq)
  cases o with
  | ok v => cases ho
  | error r' =>
      cases ho
      generalize x.returnExceptions = re at hjoined
      cases hjoined with
      | failure vs r rest =>
          obtain ⟨u, hmem, hfind, hfailed⟩ := find?_failed hout
          refine ⟨u, hmem, ?_, hfailed⟩
          rw [firstFailed?, h.held.group]
          exact hfind

theorem firstFailed?_congr (hgroups : w'.groups = w.groups)
    (hout : ∀ u, w'.taskOutcome? u = w.taskOutcome? u) (g : GroupRef) :
    w'.firstFailed? g = w.firstFailed? g := by
  simp only [firstFailed?, hgroups, hout]

theorem groups_takeUp (w : World β σ) (s t : Nat) : (w.takeUp s t).2.groups = w.groups := by
  simp only [takeUp]
  split
  · rfl
  · split
    · rfl
    · split <;> rfl

theorem taskOutcome?_takeUp (w : World β σ) (s t u : Nat) :
    (w.takeUp s t).2.taskOutcome? u = w.taskOutcome? u := by
  simp only [takeUp]
  split
  · rfl
  · split
    · rfl
    · split
      · rfl
      · simp only [taskOutcome?, get?_tasks_modifyTask]
        split
        · rw [Option.bind_map]
          rfl
        · rfl

/-! ### One turn -/

/-- The resume of an episode was taken by a coroutine in a world in which it may run. -/
structure Taken (L : Law β σ)
    (resume : CoroutineRef → Input → World β σ → Except Abort Step × World β σ)
    (e : Episode β σ) : Prop where
  lawful : e.entered.Lawful L
  input : L.input e.input
  accepted : ∃ y, e.entered.handles.get? e.coroutine.id = some y ∧ y.refusal? e.input = none
  sound : ∃ l base, ∀ forgets,
    (e.entered.modifyHandle e.coroutine (·.entered forgets)).Sound l base none
  ended : resume e.coroutine e.input e.entered = (.ok e.step, e.left)

/-- The frames of exceptions that resumes raise stand in the scopes that `own` gives, if those of the
exceptions that they are handed do. -/
def Accounts (L : Law β σ)
    (resume : CoroutineRef → Input → World β σ → Except Abort Step × World β σ)
    (own : Episode β σ → List String → List String) : Prop :=
  ∀ {e : Episode β σ} {r : Record} {thrown : List String}, Taken L resume e →
    e.step = .raise r → (∀ r', e.input = .throw r' → r'.scopes = thrown) → r.scopes = own e thrown

/-- What the history of a run tells of one of its tasks between two turns. -/
structure Recounts (own : Episode β σ → List String → List String) (s : Nat)
    (past : List (Episode β σ)) (w : World β σ) (u : Nat) : Prop where
  failed : ∀ {r}, w.taskOutcome? u = some (.error r) → r.scopes = failedScopes own past u
  /-- A task that awaits no group is in the queue, with what it is handed. -/
  handed : ∀ {x}, w.tasks.get? u = some x → x.outcome = none →
    (∀ e, past.find? (·.task = u) = some e → e.joined? = none) → w.InQueue s u ∧
      ∀ r, x.inbox = .throw r → r.scopes = handedScopes (failedScopes own past) past w u
  waiting : ∀ {e g}, past.find? (·.task = u) = some e → e.joined? = some g →
    ∃ x claims ts, claims.length = x.handles.length ∧ w.Waited s g x u claims ts e.coroutine

/-- The history of a run is about the tasks of the run, and tells of each of them. -/
structure Told (own : Episode β σ → List String → List String) (s root : Nat)
    (past : List (Episode β σ)) (w : World β σ) : Prop where
  tasks : ∀ e ∈ past, w.TaskOf root e.task
  recounts : ∀ {u}, w.TaskOf root u → Recounts own s past w u

section

variable {bodies : Bodies β σ} {depth : Nat} {x : Task} {top : CoroutineRef} {frame : Frame}
  {step : Step} {v : World β σ}

/-- What the turns of a run work on: the coroutine that a turn resumes, in a world that is sound while it
runs, and the step that the turn goes on from. -/
theorem Poised.episode (hb : bodies.masked.Orderly) (h : w.Poised s root c l base)
    (hd : w.dequeue s = some (t, w₁)) (hs : w₁.step (resume bodies depth) s t = (.ok (), w')) :
    ∃ l' x top frame step v, w'.Poised s root c l' base ∧
      Turn bodies.masked depth s t l base w x top frame step v w' ∧ ∃ w₂,
        w₁.takeUp s t = (.ok (some (top, x.inbox)), w₂) ∧
        resume bodies depth top x.inbox w₂ = (.ok step, v.modifyHandle top (·.left frame step)) ∧
        (∃ y, w₂.handles.get? top.id = some y ∧ y.refusal? x.inbox = none) ∧
        ∀ forgets, (w₂.modifyHandle top (·.entered forgets)).Sound (l.set t s (.current top)) base
          none := by
  have hmasked := step_akin (resume_masked bodies depth) w₁ s t
  rw [hs] at hmasked
  obtain ⟨l', hp', -, x, top, frame, step, v, hturn, -⟩ := h.apart hb hd hmasked.eq_of_ok
  obtain ⟨w₁', w₂, hd', htake, hres⟩ := hturn.takes
  cases hd.symm.trans hd'
  refine ⟨l', x, top, frame, step, v, hp', hturn, w₂, htake, ?_, ?_⟩
  · have hakin := resume_masked bodies depth top x.inbox w₂
    rw [hres] at hakin
    simp only [World.step, htake] at hs
    split at hs
    · cases hs
    · next e =>
        rw [e] at hakin ⊢
        exact hakin.eq_of_ok.symm
  · obtain ⟨x', top', rest, y, hx', hchain, -, hy, hrefuse, hcases⟩ := h.sound.takeUp h.calm hd
    cases hturn.row.symm.trans hx'
    obtain ⟨rest', hchain'⟩ := hturn.chain
    cases hchain.symm.trans hchain'
    rcases hcases with ⟨limit, w₃, he, -⟩ | ⟨w₃, he, hhandles, hsound⟩
    · cases htake.symm.trans he
    · cases htake.symm.trans he
      exact ⟨⟨y, hhandles ▸ hy, hrefuse⟩, hsound⟩

/-- The exception that a task takes up in its turn has the scopes that the history tells. -/
theorem Told.thrown (h : Told own s root past w) (hp : w.Poised s root c l base)
    (hturn : Turn bodies depth s t l base w x top frame step v w')
    (hd : w.dequeue s = some (t, w₁)) {r : Record} (hr : x.inbox = .throw r) :
    r.scopes = handedScopes (failedScopes own past) past (w₁.takeUp s t).2 t := by
  obtain ⟨ctx, hc⟩ := hp.active
  obtain rfl := hp.root_eq hc
  have htask := hp.sound.taskOf_of_standing hc hturn.ready
  by_cases hjoined : ∃ e g, past.find? (·.task = t) = some e ∧ e.joined? = some g
  · obtain ⟨e, g, hlast, hg⟩ := hjoined
    obtain ⟨z, claims, ts, hclaims, hw⟩ := (h.recounts htask).waiting hlast hg
    obtain ⟨y, rest, hy, -, -, hsettled⟩ := hw.row
    cases hturn.row.symm.trans hy
    have hq := hp.quiescent hw.held hclaims hturn.ready nofun
    obtain ⟨u, hmem, hfirst, hfailed⟩ := hw.firstFailed hclaims hq (hr ▸ (hsettled hq).2)
    have hsame : (w₁.takeUp s t).2.firstFailed? g = some u := by
      obtain ⟨_, rest, -, -, rfl⟩ := dequeue_eq_some hd
      rw [← hfirst]
      exact firstFailed?_congr (groups_takeUp ..) (fun u => taskOutcome?_takeUp ..) g
    simp only [handedScopes, hlast, hg, hsame, Option.map_some, Option.getD_some]
    exact (h.recounts (.member htask hw.held.group rfl hmem)).failed hfailed
  · have hnone : ∀ e, past.find? (·.task = t) = some e → e.joined? = none := fun e he => by
      cases hg : e.joined? with
      | none => rfl
      | some g => exact absurd ⟨e, g, he, hg⟩ hjoined
    rw [handedScopes_congr hnone _ w]
    exact ((h.recounts htask).handed hturn.row hturn.outcome hnone).2 r hr

/-- The task of a turn goes on, unless it comes to await a group. -/
theorem Turn.goesOn (h : Turn bodies depth s t l base w x top frame step v w')
    (hgroup : ∀ g, step = .await (.group g) →
      (v.modifyHandle top (·.left frame step)).groupTaken g = true) : w'.GoesOn s t step := by
  obtain ⟨rest, hc⟩ := h.chain
  have hgoes := goesOn_absorb (w := v.modifyHandle top (·.left frame step)) h.mine hc h.outcome rfl
    h.active hgroup
  rwa [h.absorbed] at hgoes

/-- A task that is ready keeps its row and its place in the queue in the turn of another task. -/
theorem Turn.ready_of_ne (h : Turn bodies depth s t l base w x top frame step v w')
    (hsound : w.Sound l base none) (hu : u ≠ t) (hq : w.InQueue s u) {y : Task}
    (hy : w.tasks.get? u = some y) : w'.InQueue s u ∧ w'.tasks.get? u = some y := by
  obtain ⟨ctx, hctx, hmem⟩ := hq
  have hl := (hsound.queued.ready hctx u).mp hmem
  have hstand : l.set t s (.current top) u = some (s, .ready) := by
    rwa [Standing.set_of_ne _ _ _ hu]
  obtain ⟨ctx', hctx'⟩ := h.sound.queued.active hstand
  exact ⟨h.touches.inQueue ⟨ctx', hctx', (h.sound.queued.ready hctx' u).mpr hstand⟩,
    h.touches.same hu (by simp [hstand]) (h.others hu (by simp [hl]) hy)⟩

/-- The task of a turn that comes to await a group waits for it. -/
theorem Turn.waits (h : Turn bodies depth s t l base w x top frame step v w') (hb : bodies.Orderly)
    (hp : w.Poised s root c l base) {g : GroupRef} (hgroup : step = .await (.group g))
    (hfree : (v.modifyHandle top (·.left frame step)).groupTaken g = false) :
    ∃ z claims ts, claims.length = z.handles.length ∧ w'.Waited s g z t claims ts top := by
  subst hgroup
  obtain ⟨w₁, w₂, hd, htake, hres⟩ := h.takes
  obtain ⟨-, -, z, ts, -, -, -, hw⟩ := hp.joins hb
    ⟨w₁, w₂, x.inbox, hd, htake, hres, hfree, h.absorbed⟩
  exact ⟨z, _, ts, length_claims .., hw⟩

section

variable {l' : Standing} {e : Episode β σ} {input : Input} {w₀ : World β σ}

/-- The task of a turn goes on with the exception of its coroutine, or waits for the group that the
coroutine came to await. -/
theorem Turn.recounts_self (hturn : Turn bodies depth s t l base w x top frame step v w')
    (hb : bodies.Orderly) (hp : w.Poised s root c l base)
    (he : e = ⟨t, top, input, w₀, step, v.modifyHandle top (·.left frame step)⟩)
    (hraise : ∀ r, step = .raise r → r.scopes = failedScopes own (e :: past) t) :
    Recounts own s (e :: past) w' t := by
  subst he
  have hhead : ∀ {e : Episode β σ}, e.task = t → (e :: past).find? (·.task = t) = some e :=
    fun ht => List.find?_cons_of_pos (by simp [ht])
  cases hjoined : Episode.joined?
      ⟨t, top, input, w₀, step, v.modifyHandle top (·.left frame step)⟩ with
  | some g =>
      obtain ⟨hgroup, hfree⟩ := Episode.joined?_eq_some_iff.mp hjoined
      obtain ⟨z, claims, ts, hclaims, hw⟩ := hturn.waits hb hp hgroup hfree
      refine ⟨fun {r} hout => ?_, fun _ _ hnone => ?_, fun {e' g'} hlast hg => ?_⟩
      · obtain ⟨y, rest, hy, -, ho, -⟩ := hw.row
        rw [taskOutcome?_of_get? hy, ho] at hout
        cases hout
      · cases hjoined.symm.trans (hnone _ (hhead rfl))
      · cases (hhead rfl).symm.trans hlast
        cases hjoined.symm.trans hg
        exact ⟨z, claims, ts, hclaims, hw⟩
  | none =>
      have hgoes : w'.GoesOn s t step := hturn.goesOn fun g hg => by
        cases hfree : (v.modifyHandle top (·.left frame step)).groupTaken g with
        | true => rfl
        | false => cases hjoined.symm.trans (Episode.joined?_eq_some_iff.mpr ⟨hg, hfree⟩)
      obtain ⟨y, hy, hcases⟩ := hgoes
      refine ⟨fun {r} hout => ?_, fun {z} hz ho _ => ?_, fun {e' g} hlast hg => ?_⟩
      · rw [taskOutcome?_of_get? hy] at hout
        rcases hcases with ⟨ho, -⟩ | ⟨o, ho', ho⟩
        · cases ho.symm.trans hout
        · cases ho.symm.trans hout
          exact hraise r (Step.eq_raise_of_outcome? ho')
      · cases hz.symm.trans hy
        rcases hcases with ⟨-, hq, hin⟩ | ⟨o, -, ho'⟩
        · refine ⟨hq, fun r hr => ?_⟩
          simp only [handedScopes, hhead, hjoined]
          rcases hin r hr with rfl | ⟨⟨f, rfl⟩, target, rfl⟩
          · exact hraise r rfl
          · rfl
        · cases ho.symm.trans ho'
      · cases (hhead rfl).symm.trans hlast
        cases hjoined.symm.trans hg

/-- What the history tells of a task stays true in the turn of another one. -/
theorem Recounts.turn_of_ne (h : Recounts own s past w u) (hsound : w.Sound l base none)
    (hturn : Turn bodies depth s t l base w x top frame step v w') (he : e.task = t) (hu : u ≠ t)
    {p : Place} (hl : l u = some (s, p)) : Recounts own s (e :: past) w' u := by
  have hne : e.task ≠ u := fun h => hu (h.symm.trans he)
  obtain ⟨y, hy⟩ := hsound.exists_row (t := u) (by simp [hl])
  obtain ⟨y', hy', -, ho⟩ := hturn.kept hu (by simp [hl]) hy
  refine ⟨fun {r} hout => ?_, fun {z} hz hnone hjoined => ?_, fun {e' g} hlast hg => ?_⟩
  · rw [taskOutcome?_of_get? hy', ho, ← taskOutcome?_of_get? hy] at hout
    rw [failedScopes_cons_of_ne hne]
    exact h.failed hout
  · cases hz.symm.trans hy'
    rw [find?_cons_of_ne hne] at hjoined
    obtain ⟨hq, hin⟩ := h.handed hy (ho.symm.trans hnone) hjoined
    obtain ⟨hq', hrow⟩ := hturn.ready_of_ne hsound hu hq hy
    cases hz.symm.trans hrow
    refine ⟨hq', fun r hr => ?_⟩
    rw [handedScopes_cons_of_ne hne hjoined w' w]
    exact hin r hr
  · rw [find?_cons_of_ne hne] at hlast
    obtain ⟨z, claims, ts, hclaims, hw⟩ := h.waiting hlast hg
    exact ⟨z, claims, ts, hclaims, hturn.waited hsound hw hclaims hl hu⟩

/-- A task that was just made has no history. -/
theorem Fresh.recounts (h : w.Fresh s u) (hnever : ∀ e ∈ past, e.task ≠ u) :
    Recounts own s past w u := by
  have hlast : past.find? (·.task = u) = none :=
    List.find?_eq_none.mpr fun e he => by simpa using hnever e he
  obtain ⟨y, hy, hi, hcases⟩ := h
  refine ⟨fun {r} hout => ?_, fun {z} hz hnone _ => ?_, fun {e g} he => by cases hlast.symm.trans he⟩
  · rw [failedScopes_eq_nil hnever]
    rw [taskOutcome?_of_get? hy] at hout
    rcases hcases with ⟨ho, -⟩ | ⟨f, ho⟩
    · cases ho.symm.trans hout
    · cases ho.symm.trans hout
      rfl
  · cases hz.symm.trans hy
    rcases hcases with ⟨-, hq⟩ | ⟨f, ho⟩
    · exact ⟨hq, fun r hr => by cases hi.symm.trans hr⟩
    · cases hnone.symm.trans ho

/-- **A turn hands on what the history tells.** -/
theorem Told.turn (h : Told own s root past w) (hb : bodies.Orderly)
    (hp : w.Poised s root c l base) (hp' : w'.Poised s root c l' base)
    (hturn : Turn bodies depth s t l base w x top frame step v w')
    (he : e = ⟨t, top, input, w₀, step, v.modifyHandle top (·.left frame step)⟩)
    (hraise : ∀ r, step = .raise r → r.scopes = failedScopes own (e :: past) t) :
    Told own s root (e :: past) w' := by
  obtain ⟨ctx, hc⟩ := hp.active
  obtain rfl := hp.root_eq hc
  have htask : e.task = t := by rw [he]
  have hmine : w.TaskOf ctx.root t := hp.sound.taskOf_of_standing hc hturn.ready
  have htasks : ∀ e' ∈ e :: past, w.TaskOf ctx.root e'.task :=
    List.forall_mem_cons.mpr ⟨htask ▸ hmine, h.tasks⟩
  refine ⟨fun e' he' => hturn.taskOf (htasks e' he'), fun {u} hu => ?_⟩
  rcases hturn.taskOf_cases hp hp' hu with hold | ⟨hnone, hfresh⟩
  · by_cases hut : u = t
    · exact hut ▸ hturn.recounts_self hb hp he hraise
    · obtain ⟨p, hl⟩ := hp.sound.standing_of_taskOf hc hold
      exact (h.recounts hold).turn_of_ne hp.sound hturn htask hut hl
  · -- a new task was never resumed
    refine hfresh.recounts fun e' he' hu' => ?_
    subst hu'
    by_cases hut : e'.task = t
    · cases hnone.symm.trans (hut ▸ hturn.mine)
    · obtain ⟨p, hl⟩ := hp.sound.standing_of_taskOf hc (htasks e' he')
      obtain ⟨y, hy⟩ := hp.sound.exists_row (t := e'.task) (by simp [hl])
      cases hnone.symm.trans (hturn.others hut (by simp [hl]) hy)

end

end

/-! ### Whole runs -/

/-- The root of a run that starts has been handed nothing. -/
theorem get?_tasks_start (h : w.start s c = (.ok root, w')) :
    ∃ id, w'.tasks.get? root = some ⟨id, 0, none, .pending, [c], .start, none⟩ := by
  obtain ⟨id, hrow⟩ := w.get?_tasks_newTask s c 0 none
  simp only [start] at h
  split at h
  · cases h
  · split at h
    · cases h
    · next hcl =>
        cases h
        obtain ⟨y, -, -, -, rfl⟩ := claim_eq_none hcl
        exact ⟨id, (hrow _).trans (if_pos rfl)⟩

/-- A run starts with its root alone, and has no history. -/
theorem Sound.told_start (h : w.Sound l base none) (hs : w.start s c = (.ok root, w')) :
    ∃ l' base', w'.Poised s root c l' base' ∧ Told own s root [] w' := by
  rcases h.start s c with ⟨f, v, he, -⟩ | ⟨v, he, hidle, hsound⟩
  · cases hs.symm.trans he
  · cases hs.symm.trans he
    obtain ⟨id, hrow⟩ := get?_tasks_start hs
    have hp : w'.Poised s w.tasks.size c (l.set w.tasks.size s .ready)
        (Function.update base s ⟨w.tasks.size, c⟩) :=
      ⟨hsound, Standing.calm_set_ready hidle _, hsound.queued.active (Standing.set_self ..),
        Function.update_self ..⟩
    obtain ⟨ctx, hc⟩ := hp.active
    have hroot := hp.root_eq hc
    -- whatever is a task of the run is its root
    have honly : ∀ {u}, w'.TaskOf w.tasks.size u → u = w.tasks.size := fun {u} hu => by
      obtain ⟨p, hl⟩ := hsound.standing_of_taskOf hc (hroot ▸ hu)
      by_contra hne
      rw [Standing.set_of_ne _ _ _ hne] at hl
      exact hidle u p hl
    refine ⟨_, _, hp, fun _ h => (by cases h), fun {u} hu => ?_⟩
    obtain rfl := honly hu
    have hfresh : w'.Fresh s w.tasks.size := ⟨_, hrow, rfl, .inl ⟨rfl, ctx, hc,
      (hsound.queued.ready hc _).mpr (Standing.set_self ..)⟩⟩
    exact hfresh.recounts fun _ h => (by cases h)

section

variable {bodies : Bodies β σ} {depth : Nat} {L : Law β σ}

/-- One turn of a run, with its history. -/
theorem Told.step (h : Told own s root past w) (hb : bodies.masked.Orderly) (hL : L.Closed)
    (hup : bodies.Upholds L) (hown : Accounts L (resume bodies depth) own)
    (hp : w.Poised s root c l base) (hlaw : w.Lawful L) (hd : w.dequeue s = some (t, w₁))
    (hs : w₁.step (resume bodies depth) s t = (.ok (), w')) :
    ∃ l', w'.Poised s root c l' base ∧ w'.Lawful L ∧
      Told own s root ((w₁.episode? (resume bodies depth) s t).toList ++ past) w' := by
  obtain ⟨l', x, top, frame, step, v, hp', hturn, w₂, htake, hres, haccepted, hsound⟩ :=
    hp.episode hb hd hs
  have hlaw₁ : w₁.Lawful L := by
    obtain ⟨_, _, -, -, rfl⟩ := dequeue_eq_some hd
    exact hlaw.of_tables rfl rfl rfl
  have hends := hlaw₁.step hL (fun c {_ _} hw hin => hw.resume hL hup depth c hin) s t
  have htaken := hlaw₁.takeUp hL s t
  rw [hs] at hends
  have he : w₁.episode? (resume bodies depth) s t =
      some ⟨t, top, x.inbox, w₂, step, v.modifyHandle top (·.left frame step)⟩ := by
    simp only [episode?, htake, hres]
  have hthrown : ∀ r, x.inbox = .throw r →
      r.scopes = handedScopes (failedScopes own past) past (w₁.takeUp s t).2 t :=
    fun r hr => h.thrown hp hturn hd hr
  rw [htake] at htaken hthrown
  have htook : Taken L (resume bodies depth)
      ⟨t, top, x.inbox, w₂, step, v.modifyHandle top (·.left frame step)⟩ :=
    ⟨htaken.lawful, htaken.value _ rfl top x.inbox rfl, haccepted, ⟨_, _, hsound⟩, hres⟩
  rw [he]
  exact ⟨l', hp', hends.lawful, h.turn hb hp hp' hturn rfl fun r hr =>
    (hown htook hr hthrown).trans (if_pos rfl).symm⟩

/-- **Turn after turn, the history of a run tells the scopes of its exceptions.** -/
theorem Told.drain (hb : bodies.masked.Orderly) (hL : L.Closed) (hup : bodies.Upholds L)
    (hown : Accounts L (resume bodies depth) own) (fuel : Nat) (h : Told own s root past w)
    (hp : w.Poised s root c l base) (hlaw : w.Lawful L)
    (hd : World.drain (resume bodies depth) s fuel w = (.ok (), w')) :
    Told own s root (history (resume bodies depth) s fuel past w) w' := by
  induction fuel generalizing past l w with
  | zero => cases hd
  | succ fuel ih =>
      simp only [World.drain] at hd
      simp only [history]
      cases hq : w.dequeue s with
      | none =>
          rw [hq] at hd
          cases hd
          exact h
      | some turn =>
          obtain ⟨t, w₁⟩ := turn
          simp only [hq] at hd
          rcases hs : w₁.step (resume bodies depth) s t with ⟨e | _, w₂⟩
          · rw [hs] at hd
            cases hd
          · obtain ⟨l', hp', hlaw', h'⟩ := h.step hb hL hup hown hp hlaw hq hs
            rw [hs] at hd
            simp only [hs]
            exact ih h' hp' hlaw' hd

/-- A run that is broken off by an exception of the script is at its limit. -/
theorem Poised.budget_of_drain (hb : bodies.masked.Orderly) (h : w.Poised s root c l base)
    {fuel : Nat} {r : Record}
    (hd : World.drain (resume bodies depth) s fuel w = (.error (.script r), w')) :
    ∃ limit, r = .ofFailure (.budget limit) := by
  have hakin := drain_akin (resume_masked bodies depth) s fuel w
  rw [hd] at hakin
  rcases hakin.eq_or with he | ⟨e, e', v, he, -, hs, -⟩
  · rcases h.sound.drain fuel h.calm h.active (resumesSound hb depth) with hf | ⟨v, l', -, -, -, hends⟩
    · rw [he] at hf
      cases hf
    · rcases hends with ⟨hok, -⟩ | ⟨limit, v', hbudget, -⟩
      · cases he.symm.trans hok
      · cases he.symm.trans hbudget
        exact ⟨limit, rfl⟩
  · cases he
    cases hs

/-- **The exception that a run ends with has gathered a frame for each scope that its history gives.** -/
theorem Sound.scopes_runWith (hb : bodies.masked.Orderly) (hL : L.Closed) (hup : bodies.Upholds L)
    (hown : Accounts L (resume bodies depth) own) (h : w.Sound l base none) (hlaw : w.Lawful L)
    {fuel : Nat} {r : Record}
    (hr : (w.runWith (resume bodies depth) fuel s c).1 = .error (.script r)) :
    r.scopes = w.runScopes (resume bodies depth) own fuel s c := by
  rcases hs : w.start s c with ⟨e | root, w₁⟩ <;> simp only [runWith, hs] at hr <;>
    simp only [runScopes, hs]
  · rcases h.start s c with ⟨f, v, he, -⟩ | ⟨v, he, -⟩
    · cases hs.symm.trans he
      cases hr
      rfl
    · cases hs.symm.trans he
  · obtain ⟨l', base', hp, htold⟩ : ∃ l' base', w₁.Poised s root c l' base' ∧
        Told own s root [] w₁ := h.told_start hs
    have hlaw' := hlaw.start hL s c
    rw [hs] at hlaw'
    rcases hd : World.drain (resume bodies depth) s fuel w₁ with ⟨e | _, w₂⟩ <;> rw [hd] at hr
    · obtain rfl : e = .script r := Except.error.inj hr
      obtain ⟨limit, rfl⟩ := hp.budget_of_drain hb hd
      rfl
    · have htold' := htold.drain hb hL hup hown fuel hp hlaw'.lawful hd
      simp only [conclude] at hr
      cases ho : w₂.taskOutcome? root with
      | none =>
          simp only [ho] at hr
          cases hr
      | some o =>
          simp only [ho] at hr
          cases o with
          | ok v => cases hr
          | error r' =>
              obtain rfl : r' = r := Abort.script.inj (Except.error.inj hr)
              exact (htold'.recounts .root).failed ho

end

end World

end Coroutines
