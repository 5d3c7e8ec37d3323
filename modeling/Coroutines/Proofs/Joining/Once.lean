import Coroutines.Proofs.Joining.Taken
import Coroutines.Proofs.Names

/-!
# A group is joined once

A task that comes to await a group is not resumed before every member has an outcome.  The next
turn of the task hands it the joined outcomes of the slots, and the group is never joined again.
-/

namespace Coroutines

namespace World

variable {β σ : Type} {w w' : World β σ} {l : Standing} {base : Nat → Start}

/-- A task waits for a group with its slots; once the group is quiescent, it has the result in its
inbox and is in the queue. -/
structure Waited (w : World β σ) (s : Nat) (g : GroupRef) (x : Group) (t : Nat)
    (claims : List (Option Failure)) (ts : List Nat) (top : CoroutineRef) : Prop where
  held : w.Held g.id x t claims ts
  row : ∃ y rest, w.tasks.get? t = some y ∧ y.chain = top :: rest ∧ y.outcome = none ∧
    (w.quiescent g = true → w.InQueue s t ∧ w.Result x claims y.inbox)

namespace Turn

variable {bodies : Bodies β σ} {depth s t : Nat} {x : Task} {top : CoroutineRef} {frame : Frame}
  {step : Step} {v : World β σ} {g : GroupRef} {y : Group} {a : Nat}
  {claims : List (Option Failure)} {ts : List Nat}

/-- A turn keeps the slots of a group that a task of the run awaits. -/
theorem held (h : Turn bodies depth s t l base w x top frame step v w')
    (hsound : w.Sound l base none) (hheld : w.Held g.id y a claims ts) {p : Place}
    (ha : l a = some (s, p)) : w'.Held g.id y a claims ts := by
  refine hheld.mono (fun hz hn => h.touches.groups (fun hfree => hn (hfree _ (h.groups hz hn)))
    (h.groups hz hn)) fun {u c claim} hu hslot => ?_
  obtain ⟨q, hq⟩ := hsound.grouped.together hheld.group rfl ha hu
  by_cases e : u = t
  · subst e
    obtain ⟨z, hz, hslot⟩ := hslot
    cases hz.symm.trans h.row
    obtain ⟨z', hz', hcase⟩ := h.comesTo
    refine ⟨z', hz', ?_⟩
    rcases hslot with ⟨hclaim, -, hlast⟩ | ⟨o, ho, -⟩
    · rcases hcase with ⟨ho', hlast'⟩ | ⟨hc, o, -, ho', hrec⟩
      · exact .inl ⟨hclaim, ho', hlast'.trans hlast⟩
      · rw [hc] at hlast
        cases hlast
        exact .inr ⟨o, ho', hclaim ▸ hrec⟩
    · rw [h.outcome] at ho
      cases ho
  · exact hslot.mono (h.kept e (by simp [hq])) h.steady'

/-- Another task that is ready stays so. -/
theorem ready_other (h : Turn bodies depth s t l base w x top frame step v w')
    (hsound : w.Sound l base none) {u : Nat} (hne : u ≠ t) (hu : w.InQueue s u) :
    w'.InQueue s u ∧ ∀ {z}, w.tasks.get? u = some z → w'.tasks.get? u = some z := by
  obtain ⟨ctx, hctx, hmem⟩ := hu
  have hready := (hsound.queued.ready hctx u).mp hmem
  have hstand : l.set t s (.current top) u = some (s, .ready) := by
    rwa [Standing.set_of_ne _ _ _ hne]
  refine ⟨h.touches.inQueue ?_, fun hz =>
    h.touches.same hne (by simp [hstand]) (h.others hne (by simp [hready]) hz)⟩
  obtain ⟨ctx', hctx'⟩ := h.sound.queued.active hstand
  exact ⟨ctx', hctx', (h.sound.queued.ready hctx' u).mpr hstand⟩

/-- The turn that makes a group quiescent ends its last member. -/
theorem last_member (h : Turn bodies depth s t l base w x top frame step v w')
    (hsound : w.Sound l base none) (hheld : w.Held g.id y a claims ts)
    (hclaims : claims.length = y.handles.length) {p : Place} (ha : l a = some (s, p))
    (hq : w.quiescent g = false) (hq' : w'.quiescent g = true) :
    x.chain = [top] ∧ ∃ o ref, step.outcome? = some o ∧ x.group = some ref ∧ ref.id = g.id := by
  have hall := ((h.held hsound hheld ha).quiescent_iff hclaims rfl).mp hq'
  have hsome : ¬ ∀ u ∈ ts, (w.taskOutcome? u).isSome = true := fun hn => by
    rw [(hheld.quiescent_iff hclaims rfl).mpr hn] at hq
    cases hq
  push Not at hsome
  obtain ⟨u, hu, hnone⟩ := hsome
  -- the member that had no outcome is the one of the turn
  have hut : u = t := by
    by_contra e
    obtain ⟨q, hq⟩ := hsound.grouped.together hheld.group rfl ha hu
    obtain ⟨m, hm, -⟩ := hsound.chained.holds hq
    obtain ⟨m', hm', -, hmo⟩ := h.kept e (by simp [hq]) hm
    have := hall u hu
    rw [taskOutcome?_of_get? hm', hmo, ← taskOutcome?_of_get? hm] at this
    exact hnone this
  subst hut
  obtain ⟨m, ref, hm, hg, href⟩ := hsound.grouped.member hheld.group hu
  cases hm.symm.trans h.row
  obtain ⟨x', hx', ⟨hn, -⟩ | ⟨hchain, o, hstep, -, -⟩⟩ := h.comesTo
  · have := hall u hu
    rw [taskOutcome?_of_get? hx', hn] at this
    cases this
  · exact ⟨hchain, o, ref, hstep, hg, href⟩

/-- The task of another turn goes on waiting, or the turn was the last that it waited for. -/
theorem waited (h : Turn bodies depth s t l base w x top frame step v w')
    (hsound : w.Sound l base none) {c : CoroutineRef}
    (hw : w.Waited s g y a claims ts c) (hclaims : claims.length = y.handles.length) {p : Place}
    (ha : l a = some (s, p)) (hne : a ≠ t) : w'.Waited s g y a claims ts c := by
  have hheld := h.held hsound hw.held ha
  refine ⟨hheld, ?_⟩
  obtain ⟨z, rest, hz, hc, ho, hready⟩ := hw.row
  have hlive : l a ≠ none := by simp [ha]
  cases hq : w.quiescent g with
  | true =>
      obtain ⟨hqueue, hresult⟩ := hready hq
      obtain ⟨hqueue', hrow⟩ := h.ready_other hsound hne hqueue
      exact ⟨z, rest, hrow hz, hc, ho, fun _ => ⟨hqueue', hresult.mono h.steady'⟩⟩
  | false =>
      obtain ⟨z', hrow, hc', ho'⟩ := h.kept hne hlive hz
      refine ⟨z', rest, hrow, hc'.trans hc, ho'.trans ho, fun hq' => ?_⟩
      obtain ⟨hchain, o, ref, hstep, hg, href⟩ := h.last_member hsound hw.held hclaims ha hq hq'
      have habsorbed := congrArg Prod.snd h.absorbed
      rw [absorb_member (w := v.modifyHandle top _) h.mine hchain hg hstep] at habsorbed
      subst habsorbed
      obtain ⟨hheld₁, hquiet⟩ := hheld.of_closeGroup
      rw [← href] at hheld₁
      have hqref := (hheld₁.quiescent_iff hclaims rfl).mpr
        ((hheld₁.quiescent_iff hclaims href.symm).mp ((hquiet g).trans hq'))
      obtain ⟨ctx, hctx⟩ := h.sound.queued.active (t := t) (Standing.set_self ..)
      obtain ⟨input, hresult, hin, hqueue⟩ := hheld₁.closeGroup hclaims hqref
        ((get?_tasks_ended h.mine hchain s o a).trans ((if_neg hne).trans (h.others hne hlive hz)))
        ⟨ctx, hctx⟩
      cases hrow.symm.trans hin
      exact ⟨hqueue, hresult.mono (.of_handles (handles_closeGroup ..))⟩

end Turn

/-! ### The run as a whole -/

section

variable (resume : CoroutineRef → Input → World β σ → Except Abort Step × World β σ)

/-- A turn in which a coroutine comes to await a group that nobody has awaited; `v` is the world at the
end of the coroutine's resume. -/
def Joins (s : Nat) (w : World β σ) (t : Nat) (top : CoroutineRef) (g : GroupRef)
    (v w' : World β σ) : Prop :=
  ∃ w₁ w₂ input, w.dequeue s = some (t, w₁) ∧ w₁.takeUp s t = (.ok (some (top, input)), w₂) ∧
    resume top input w₂ = (.ok (.await (.group g)), v) ∧ v.groupTaken g = false ∧
    v.absorb s t top (.await (.group g)) = (.ok (), w')

/-- Every member of a group has an outcome, and the task that awaits the group is in the queue, with
the result for its coroutine. -/
def Settled (w : World β σ) (s t : Nat) (top : CoroutineRef) (g : GroupRef) (x : Group)
    (claims : List (Option Failure)) : Prop :=
  w.quiescent g = true ∧ w.Listed s t ∧ ∃ y rest, w.tasks.get? t = some y ∧ y.chain = top :: rest ∧
    w.Result x claims y.inbox

/-- How far a group has come in a run after it was joined, with the coroutines that the run has
resumed since. -/
inductive Joining (s t : Nat) (top : CoroutineRef) (g : GroupRef) (x : Group)
    (claims : List (Option Failure)) (w : World β σ) :
    List (CoroutineRef × Step) → World β σ → Prop
  /-- A member has no outcome yet, and the run goes on without the coroutine. -/
  | waiting {log : List (CoroutineRef × Step)} {w' : World β σ} (hlog : ∀ e ∈ log, e.1.id ≠ top.id)
      (hopen : w'.quiescent g = false) (hout : w'.Unlisted s t) (hmore : w'.dequeue s ≠ none) :
    Joining s t top g x claims w log w'
  | settled {log : List (CoroutineRef × Step)} {w' : World β σ} (hlog : ∀ e ∈ log, e.1.id ≠ top.id)
      (h : w'.Settled s t top g x claims) : Joining s t top g x claims w log w'
  /-- The coroutine was resumed with the result, in the first turn of its task after the join. -/
  | resumed {before after : List (CoroutineRef × Step)} {step : Step} {input : Input}
      {w₁ w₂ w₃ w₄ w' : World β σ} (hbefore : Turns resume s w before w₁)
      (hlog : ∀ e ∈ before, e.1.id ≠ top.id) (hq : w₁.quiescent g = true)
      (hd : w₁.dequeue s = some (t, w₂)) (ht : w₂.takeUp s t = (.ok (some (top, input)), w₃))
      (hresult : w₁.Result x claims input) (hs : w₂.step resume s t = (.ok (), w₄))
      (hstep : w₂.resumed resume s t = [(top, step)]) (hafter : Turns resume s w₄ after w') :
    Joining s t top g x claims w (before ++ (top, step) :: after) w'

end

section

variable {resume resume' : CoroutineRef → Input → World β σ → Except Abort Step × World β σ}
  {s t : Nat} {top : CoroutineRef} {g : GroupRef}

theorem Joins.akin (hres : ∀ c input w, Akin (resume c input w) (resume' c input w)) {v : World β σ}
    (h : Joins resume s w t top g v w') : Joins resume' s w t top g v w' := by
  obtain ⟨w₁, w₂, input, hd, ht, hr, hfree, habsorb⟩ := h
  have hr' := hres top input w₂
  rw [hr] at hr'
  exact ⟨w₁, w₂, input, hd, ht, hr'.eq_of_ok, hfree, habsorb⟩

theorem Joining.akin (hres : ∀ c input w, Akin (resume c input w) (resume' c input w)) {x : Group}
    {claims : List (Option Failure)} {log : List (CoroutineRef × Step)}
    (h : Joining resume s t top g x claims w log w') :
    Joining resume' s t top g x claims w log w' := by
  cases h with
  | waiting hlog hopen hout hmore => exact .waiting hlog hopen hout hmore
  | settled hlog h => exact .settled hlog h
  | @resumed _ _ _ _ _ w₂ _ _ _ hbefore hlog hq hd ht hresult hs hstep hafter =>
      have hs' := step_akin hres w₂ s t
      rw [hs] at hs'
      exact .resumed (hbefore.akin hres) hlog hq hd ht hresult hs'.eq_of_ok
        ((resumed_akin hres hs).symm.trans hstep) (hafter.akin hres)

end

/-- Masked bodies join the same groups. -/
theorem joins_masked {bodies : Bodies β σ} {depth s t : Nat} {top : CoroutineRef} {g : GroupRef}
    {v : World β σ} : Joins (resume bodies.masked depth) s w t top g v w' ↔
      Joins (resume bodies depth) s w t top g v w' :=
  ⟨.akin fun c input w => (resume_masked bodies depth c input w).symm,
    .akin (resume_masked bodies depth)⟩

/-- Masked bodies are resumed with the same results. -/
theorem joining_masked {bodies : Bodies β σ} {depth s t : Nat} {top : CoroutineRef} {g : GroupRef}
    {x : Group} {claims : List (Option Failure)} {log : List (CoroutineRef × Step)} :
    Joining (resume bodies.masked depth) s t top g x claims w log w' ↔
      Joining (resume bodies depth) s t top g x claims w log w' :=
  ⟨.akin fun c input w => (resume_masked bodies depth c input w).symm,
    .akin (resume_masked bodies depth)⟩

section

variable {s t root : Nat} {c top : CoroutineRef} {g : GroupRef} {x : Group}
  {claims : List (Option Failure)} {ts : List Nat} {p : Place}

/-- The members of a group that is quiescent are over. -/
theorem Poised.over (h : w.Poised s root c l base) (hheld : w.Held g.id x t claims ts)
    (hclaims : claims.length = x.handles.length) (ht : l t = some (s, p))
    (hq : w.quiescent g = true) : ∀ u ∈ ts, w.Over u := by
  intro u hu
  obtain ⟨q, hl⟩ := h.sound.grouped.together hheld.group rfl ht hu
  rw [h.sound.over_iff hl]
  obtain ⟨y, hy, hh⟩ := h.sound.chained.holds hl
  have hout := (hheld.quiescent_iff hclaims rfl).mp hq u hu
  rw [taskOutcome?_of_get? hy] at hout
  exact hh.outcome.mp hout

/-- A task that is not blocked by a group that it awaits no longer waits for its members. -/
theorem Poised.quiescent (h : w.Poised s root c l base) (hheld : w.Held g.id x t claims ts)
    (hclaims : claims.length = x.handles.length) (ht : l t = some (s, p)) (hp : p ≠ .blocked g.id) :
    w.quiescent g = true := by
  refine (hheld.quiescent_iff hclaims rfl).mpr fun u hu => ?_
  exact (h.sound.outcome_iff hheld.group rfl ht hu).mpr
    (h.sound.grouped.settled hheld.group rfl ht hp u hu)

/-- A task that has not taken up the result of its group is out of the queue while a member has no
outcome, and in the queue with the result afterwards. -/
theorem Poised.joining {resume : CoroutineRef → Input → World β σ → Except Abort Step × World β σ}
    {log : List (CoroutineRef × Step)} {w₀ : World β σ} (h : w.Poised s root c l base)
    (hw : w.Waited s g x t claims ts top) (hclaims : claims.length = x.handles.length)
    (ht : l t = some (s, p)) (hlog : ∀ e ∈ log, e.1.id ≠ top.id) :
    Joining resume s t top g x claims w₀ log w := by
  obtain ⟨y, rest, hy, hc, ho, hready⟩ := hw.row
  cases hq : w.quiescent g with
  | true =>
      obtain ⟨⟨ctx, hctx, hmem⟩, hresult⟩ := hready hq
      have hlisted := h.sound.listed_iff.mpr ((h.sound.queued.ready hctx t).mp hmem)
      exact .settled hlog ⟨hq, hlisted, y, rest, hy, hc, hresult⟩
  | false =>
      refine .waiting hlog hq (h.sound.unlisted_iff.mpr fun e => ?_) fun hd => ?_
      · rw [h.quiescent hw.held hclaims e nofun] at hq
        cases hq
      · obtain ⟨ctx, hctx⟩ := h.active
        have hidle : ctx.ready = [] := by
          simp only [dequeue, hctx] at hd
          split at hd
          · next e => exact e
          · cases hd
        obtain rfl := h.sound.ended_of_idle h.calm hctx hidle ht
        obtain ⟨y', hy', hh⟩ := h.sound.chained.holds ht
        cases hy.symm.trans hy'
        have hsome := hh.outcome.mpr rfl
        rw [ho] at hsome
        cases hsome

/-- A task waits for the group that it has joined. -/
theorem Poised.joins {bodies : Bodies β σ} (hb : bodies.Orderly) {depth : Nat} {v : World β σ}
    (h : w.Poised s root c l base) (hj : Joins (resume bodies depth) s w t top g v w') :
    ∃ l' p x ts, w'.Poised s root c l' base ∧ l' t = some (s, p) ∧ v.groups.get? g.id = some x ∧
      w'.Waited s g x t (v.claims x.handles) ts top := by
  obtain ⟨w₁, w₂, input, hd, htake, hres, hfree, habsorb⟩ := hj
  have hs : w₁.step (resume bodies depth) s t = (.ok (), w') := by
    simp only [World.step, htake, hres, habsorb]
  obtain ⟨l', hp, hafter, y, top', frame, step, v₁, hturn, -⟩ := h.apart hb hd hs
  obtain ⟨w₁', w₂', hd', htake', hres'⟩ := hturn.takes
  cases hd.symm.trans hd'
  cases htake.symm.trans htake'
  obtain ⟨hstep, hv⟩ := Prod.mk.inj (hres.symm.trans hres')
  cases hstep
  obtain ⟨p, hp'⟩ := hafter.stays t .ready hturn.ready
  obtain ⟨x, hx, hnone⟩ := groupTaken_eq_false_iff.mp hfree
  have hidle := hturn.sound.grouped.idle (by rw [← hx, hv]; rfl) hnone
  have hactive : ∃ ctx, v.context? s = some ctx := by
    rw [hv]
    exact hturn.sound.queued.active (t := t) (Standing.set_self ..)
  have hrow : (v.modifyTask t fun x => { x with state := .suspended }).tasks.get? t =
      some { y with state := .suspended, inbox := .start } := by
    rw [hv]
    exact (get?_modifyTask_of_get? (w := v₁.modifyHandle top _) hturn.mine _ t).trans (if_pos rfl)
  obtain ⟨ts, hheld, input', hrow', hready⟩ := held_startGroup
    (w := v.modifyTask t fun x => { x with state := .suspended }) (s := s) hx hidle hrow hactive
  have hstart : ((v.modifyTask t fun x => { x with state := .suspended }).startGroup s t g).2 = w' := by
    rw [absorb, suspend_of_free hfree] at habsorb
    rw [habsorb]
  rw [hstart] at hheld hrow' hready
  have hclaimable : ∀ i, (v.modifyTask t fun x => { x with state := .suspended }).claimable i =
      v.claimable i := fun _ => rfl
  rw [claims_congr hclaimable] at hheld hready
  obtain ⟨rest, hc⟩ := hturn.chain
  exact ⟨l', p, x, ts, hp, hp', hx, hheld, _, rest, hrow', hc, hturn.outcome, hready⟩

/-- A group whose members were all refused has settled as soon as it is joined. -/
theorem Waited.quiescent_of_refused (h : w.Waited s g x t claims ts top)
    (hclaims : claims.length = x.handles.length) (hall : ∀ f ∈ claims, f ≠ none) :
    w.quiescent g = true := by
  refine (h.held.quiescent_iff hclaims rfl).mpr fun u hu => ?_
  obtain ⟨q, hq, y, hy, hslot⟩ := exists_of_forall₂ (List.Forall₂.flip h.held.slots) hu
  rcases hslot with ⟨hnone, -⟩ | ⟨o, ho, -⟩
  · exact absurd hnone (hall _ (List.of_mem_zip hq).2)
  · rw [taskOutcome?_of_get? hy, ho]
    rfl

/-- A group that has come to be joined stays so in the turns that follow. -/
theorem Poised.joining_turns {bodies : Bodies β σ} (hb : bodies.Orderly) {depth : Nat}
    {log : List (CoroutineRef × Step)} (h : w.Poised s root c l base)
    (hw : w.Waited s g x t claims ts top) (hclaims : claims.length = x.handles.length)
    (ht : l t = some (s, p)) (hturns : Turns (resume bodies depth) s w log w') :
    ∃ l' p', w'.Poised s root c l' base ∧ l' t = some (s, p') ∧ w'.Held g.id x t claims ts ∧
      Joining (resume bodies depth) s t top g x claims w log w' ∧
      (w'.Waited s g x t claims ts top ∧ (∀ e ∈ log, e.1.id ≠ top.id) ∨
        ∀ log' w'', Turns (resume bodies depth) s w' log' w'' →
          Joining (resume bodies depth) s t top g x claims w (log ++ log') w'') := by
  induction hturns with
  | refl => exact ⟨l, p, h, ht, hw.held, h.joining hw hclaims ht (by simp), .inl ⟨hw, by simp⟩⟩
  | @more t' log w₁ w₂ w₃ hbefore hd hs ih =>
      obtain ⟨l₁, p₁, hp₁, ht₁, hheld₁, -, hcase⟩ := ih
      obtain ⟨l₃, hp₃, hafter, x', top', frame, step, v, hturn, hlog'⟩ := hp₁.apart hb hd hs
      obtain ⟨p₃, ht₃⟩ := hafter.stays t p₁ ht₁
      have hheld₃ := hturn.held hp₁.sound hheld₁ ht₁
      refine ⟨l₃, p₃, hp₃, ht₃, hheld₃, ?_⟩
      rcases hcase with ⟨hw₁, hlog⟩ | hall
      · obtain ⟨y, rest, hy, hc, ho, hready⟩ := hw₁.row
        by_cases e : t = t'
        · -- the task takes up the result
          subst e
          cases hy.symm.trans hturn.row
          obtain ⟨rest', hc'⟩ := hturn.chain
          cases hc.symm.trans hc'
          obtain ⟨w₂', w₄, hd', htake, -⟩ := hturn.takes
          cases hd.symm.trans hd'
          have hq := hp₁.quiescent hheld₁ hclaims hturn.ready nofun
          have hall : ∀ log' w'', Turns (resume bodies depth) s w₃ log' w'' →
              Joining (resume bodies depth) s t top g x claims w
                (log ++ w₂.resumed (resume bodies depth) s t ++ log') w'' := by
            intro log' w'' hrest
            rw [hlog', List.append_assoc, List.singleton_append]
            exact .resumed hbefore hlog hq hd htake (hready hq).2 hs hlog' hrest
          refine ⟨?_, .inr hall⟩
          have := hall [] w₃ .refl
          rwa [List.append_nil] at this
        · have hw₃ := hturn.waited hp₁.sound hw₁ hclaims ht₁ e
          have hlog₃ : ∀ e ∈ log ++ w₂.resumed (resume bodies depth) s t', e.1.id ≠ top.id := by
            intro d hd
            rcases List.mem_append.mp hd with hd | hd
            · exact hlog d hd
            · rw [hlog', List.mem_singleton] at hd
              subst hd
              obtain ⟨rest', hc'⟩ := hturn.chain
              exact fun hid => e (hp₁.sound.chained.apart (by simp [ht₁]) (by simp [hturn.ready]) hy
                hturn.row (by simp [hc]) (by simp [hc']) hid.symm)
          exact ⟨hp₃.joining hw₃ hclaims ht₃ hlog₃, .inl ⟨hw₃, hlog₃⟩⟩
      · have hone := hall _ _ (.more .refl hd hs)
        refine ⟨hone, .inr fun log' w'' hrest => ?_⟩
        rw [List.append_assoc]
        exact hall _ _ ((Turns.more .refl hd hs).trans hrest)

/-- The results of claims are no failure, or one of the two that a claim can end with. -/
theorem claims_cases (w : World β σ) (cs : List CoroutineRef) :
    ∀ f ∈ w.claims cs, f = none ∨ f = some .coroutineBusy ∨ f = some .coroutineReuse := by
  induction cs generalizing w with
  | nil => exact fun f hf => nomatch hf
  | cons c rest ih =>
      intro f hf
      rcases List.mem_cons.mp hf with rfl | hf
      · cases e : (w.claim c 0).1 with
        | none => exact .inl rfl
        | some f => exact .inr ((busy_or_reuse_of_claim e).imp (congrArg some) (congrArg some))
      · exact ih _ f hf

/-- **A coroutine that joins a group is resumed with the group's result once.**  Between the join and
that turn it is not resumed at all, and the turn comes only after every member has an outcome: the
outcome recorded for its coroutine if the group could claim it, and the failure of the claim
otherwise.  The result is made of these outcomes in the order of the members, whenever they came
about.  A run does not go idle before the result is taken up, and once every member has an outcome, no
member is resumed and nobody joins the group again.  Errors of the host in some bodies make no difference to
this. -/
theorem joined_once {bodies : Bodies β σ} (hb : bodies.masked.Orderly) {α : Type}
    {action : Action β σ α} (ha : action.masked.Orderly) {limits : List (Option Number)} {shared : σ}
    {fuel depth : Nat} {log log' : List (CoroutineRef × Step)} {w₁ w₂ w₃ v : World β σ}
    (ho : Opens bodies action fuel (World.initial limits shared) s c depth root w)
    (ht : Turns (resume bodies depth) s w log w₁)
    (hj : Joins (resume bodies depth) s w₁ t top g v w₂)
    (ht' : Turns (resume bodies depth) s w₂ log' w₃) :
    ∃ x, v.groups.get? g.id = some x ∧
      (∀ f ∈ v.claims x.handles, f = none ∨ f = some .coroutineBusy ∨ f = some .coroutineReuse) ∧
      ((∀ f ∈ v.claims x.handles, f ≠ none) →
        w₂.Settled s t top g x (v.claims x.handles)) ∧
      Joining (resume bodies depth) s t top g x (v.claims x.handles) w₂ log' w₃ ∧
      (∀ t' top' v' w', ¬ Joins (resume bodies depth) s w₃ t' top' g v' w') ∧
      ∃ y, w₃.groups.get? g.id = some y ∧ y.handles = x.handles ∧
        (w₃.quiescent g = true → ∀ u ∈ y.tasks, w₃.Over u) := by
  obtain ⟨l₁, base₁, hp₁⟩ := poised_between_turns hb ha ho ht
  obtain ⟨l₂, p₂, x, ts, hp₂, ht₂, hx, hw₂⟩ := hp₁.joins hb (joins_masked.mpr hj)
  have hclaims := length_claims v x.handles
  obtain ⟨l₃, p₃, hp₃, ht₃, hheld₃, hjoining, -⟩ :=
    hp₂.joining_turns hb hw₂ hclaims ht₂ (turns_masked.mpr ht')
  refine ⟨x, hx, claims_cases v _, fun hall => ?_, joining_masked.mp hjoining, ?_, _, hheld₃.group, rfl,
    hp₃.over hheld₃ hclaims ht₃⟩
  · have hq := hw₂.quiescent_of_refused hclaims hall
    obtain ⟨y, rest, hy, hc, -, hready⟩ := hw₂.row
    obtain ⟨⟨ctx, hctx, hmem⟩, hresult⟩ := hready hq
    exact ⟨hq, hp₂.sound.listed_iff.mpr ((hp₂.sound.queued.ready hctx t).mp hmem), y, rest, hy, hc,
      hresult⟩
  · intro t' top' v' w' hj'
    obtain ⟨w₄, w₅, input, hd, htake, hres, hfree, habsorb⟩ := joins_masked.mpr hj'
    have hs : w₄.step (resume bodies.masked depth) s t' = (.ok (), w') := by
      simp only [World.step, htake, hres, habsorb]
    obtain ⟨-, -, -, y, top₁, frame, step, v₁, hturn, -⟩ := hp₃.apart hb hd hs
    obtain ⟨w₄', w₅', hd', htake', hres'⟩ := hturn.takes
    cases hd.symm.trans hd'
    cases htake.symm.trans htake'
    obtain ⟨-, hv⟩ := Prod.mk.inj (hres.symm.trans hres')
    have hrow := hturn.groups hheld₃.group (fun h => by cases h)
    simp [groupTaken, hv, hrow] at hfree

end

/-- The coroutine that gathers its member twice is about to await the group. -/
def gatheringTwiceJoin : World Bool Unit :=
  (World.resume gatheringTwice 1 ⟨0, "main"⟩ .start
    ((gatheringStarts.modifyContext 0 fun ctx => { ctx with ready := [] }).takeUp 0 0).2).2

/-- Its member and then it itself are resumed after it has joined the group. -/
def gatheringTwiceLog : List (CoroutineRef × Step) :=
  [(⟨1, "child"⟩, .ret .none), (⟨0, "main"⟩, .raise (.ofFailure .coroutineBusy))]

/-- A coroutine gathers another one twice.  The first member is claimed and returns, the second is refused;
after the first has returned the coroutine is resumed with the failure of the second. -/
theorem gathering_twice_joined :
    Joins (World.resume gatheringTwice 1) 0 gatheringStarts 0 ⟨0, "main"⟩ ⟨0, 2⟩ gatheringTwiceJoin
      gatheringTwiceWaits ∧
    Turns (World.resume gatheringTwice 1) 0 gatheringTwiceWaits gatheringTwiceLog gatheringTwiceEnds ∧
    ∃ x, gatheringTwiceJoin.groups.get? 0 = some x ∧
      gatheringTwiceJoin.claims x.handles = [none, some .coroutineBusy] ∧
      Joining (World.resume gatheringTwice 1) 0 0 ⟨0, "main"⟩ ⟨0, 2⟩ x
        (gatheringTwiceJoin.claims x.handles) gatheringTwiceWaits gatheringTwiceLog gatheringTwiceEnds := by
  have hopens : Opens gatheringTwice runGathering 1 (World.initial [none] ()) 0 ⟨0, "main"⟩ 1 0
      gatheringStarts := .direct (.more .refl rfl) rfl
  let w₁ := gatheringStarts.modifyContext 0 fun ctx => { ctx with ready := [] }
  let w₂ := (w₁.takeUp 0 0).2
  have hd : gatheringStarts.dequeue 0 = some (0, w₁) := rfl
  have htake : w₁.takeUp 0 0 = (.ok (some (⟨0, "main"⟩, .start)), w₂) := rfl
  have hres : World.resume gatheringTwice 1 ⟨0, "main"⟩ .start w₂ =
      (.ok (.await (.group ⟨0, 2⟩)), gatheringTwiceJoin) := rfl
  have hfree : gatheringTwiceJoin.groupTaken ⟨0, 2⟩ = false := by decide +kernel
  have hok : (gatheringTwiceJoin.absorb 0 0 ⟨0, "main"⟩ (.await (.group ⟨0, 2⟩))).1.toOption =
      some () := by decide +kernel
  have hstep : w₁.step (World.resume gatheringTwice 1) 0 0 =
      gatheringTwiceJoin.absorb 0 0 ⟨0, "main"⟩ (.await (.group ⟨0, 2⟩)) := by
    simp only [World.step, htake, hres]
  have habsorb : gatheringTwiceJoin.absorb 0 0 ⟨0, "main"⟩ (.await (.group ⟨0, 2⟩)) =
      (.ok (), gatheringTwiceWaits) := by
    have hwaits : (gatheringTwiceJoin.absorb 0 0 ⟨0, "main"⟩ (.await (.group ⟨0, 2⟩))).2 =
        gatheringTwiceWaits := by
      rw [← hstep]
      rfl
    rw [← hwaits]
    rcases h : gatheringTwiceJoin.absorb 0 0 ⟨0, "main"⟩ (.await (.group ⟨0, 2⟩)) with ⟨e | ⟨⟩, v⟩
    · rw [h] at hok
      cases hok
    · rfl
  have hj : Joins (World.resume gatheringTwice 1) 0 gatheringStarts 0 ⟨0, "main"⟩ ⟨0, 2⟩
      gatheringTwiceJoin gatheringTwiceWaits := ⟨w₁, w₂, .start, hd, htake, hres, hfree, habsorb⟩
  have hchild : Turns (World.resume gatheringTwice 1) 0 gatheringTwiceWaits
      [(⟨1, "child"⟩, .ret .none)] gatheringTwiceResumes := by
    have hd : gatheringTwiceWaits.dequeue 0 =
        some (1, gatheringTwiceWaits.modifyContext 0 fun ctx => { ctx with ready := [] }) := rfl
    exact .more .refl hd rfl
  have hmain : Turns (World.resume gatheringTwice 1) 0 gatheringTwiceResumes
      [(⟨0, "main"⟩, .raise (.ofFailure .coroutineBusy))] gatheringTwiceEnds := by
    have hd : gatheringTwiceResumes.dequeue 0 =
        some (0, gatheringTwiceResumes.modifyContext 0 fun ctx => { ctx with ready := [] }) := rfl
    exact .more .refl hd rfl
  have ht := hchild.trans hmain
  have hclaims : (gatheringTwiceJoin.groups.get? 0).map
      (fun x => gatheringTwiceJoin.claims x.handles) = some [none, some .coroutineBusy] := by
    decide +kernel
  obtain ⟨x, hx, -, -, hjoining, -⟩ :=
    joined_once gatheringTwice_orderly.masked runGathering_orderly.masked hopens .refl hj ht
  rw [hx] at hclaims
  exact ⟨hj, ht, x, hx, Option.some.inj hclaims, hjoining⟩

end World

end Coroutines
