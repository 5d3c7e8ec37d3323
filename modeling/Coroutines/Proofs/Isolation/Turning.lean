import Coroutines.Proofs.Isolation.Closing

/-!
# Runs along their plans

A turn of a run makes one resume of its plans.  A run that follows plans therefore ends, after no more
turns than the plans have left, and its root comes to the outcome of the evaluation.
-/

namespace Coroutines

namespace TaskPlan

variable {β σ : Type} {w w' : World β σ} {s t : Nat} {q : List Nat} {bodies : Bodies β σ}
  {constant : σ → Prop} {iso : Isolation bodies s constant} {ρ ρ' : Names} {p : TaskPlan β σ}
  {A B ps : List (TaskPlan β σ)} {root : Nat} {o : Outcome}

/-- No task is being resumed. -/
def Calm (ps : List (TaskPlan β σ)) : Prop := ∀ p ∈ ps, p.stage ≠ .held

theorem Calm.replace {L : List (TaskPlan β σ)} (h : Calm (A ++ B)) (hL : Calm L) :
    Calm (A ++ (L ++ B)) := by
  intro r hr
  simp only [List.mem_append] at hr
  rcases hr with hr | hr | hr
  · exact h r (by simp [hr])
  · exact hL r hr
  · exact h r (by simp [hr])

theorem Calm.cons {l : TaskPlan β σ} (h : Calm (A ++ B)) (hl : l.stage ≠ .held) : Calm (A ++ l :: B) :=
  h.replace (L := [l]) fun _ hr => List.mem_singleton.mp hr ▸ hl

theorem Calm.erase (h : Calm (A ++ p :: B)) : Calm (A ++ B) := fun r hr => h r (by
  simp only [List.mem_append, List.mem_cons] at hr ⊢
  tauto)

/-- The turn of a run of which a plan has been held is over: the run follows plans with so many turns
left. -/
def Comes (iso : Isolation bodies s constant) (ρ : Names) (root : Nat) (o : Outcome) (n : Nat)
    (result : Except Abort Unit × World β σ) : Prop :=
  ∃ ρ' w' q' ps', result = (.ok (), w') ∧ ρ ≤ ρ' ∧ Follows iso ρ' w' root o q' none ps' ∧
    Calm ps' ∧ total ps' = n

/-! ### Ending -/

/-- The task of a plan without coroutines left has ended. -/
theorem Follows.endTask (h : Follows iso ρ w root o q none (A ++ p :: B)) (hs : p.stage = .held)
    {c top : CoroutineRef} {oc' : Outcome} (hpc : p.chain = [c]) (hc : c.Alike ρ top)
    (ho : p.outcome.Alike Eq ρ oc') {x : Task} (hx : w.tasks.get? p.task = some x) :
    ∃ w₁, w.unwind s p.task top oc' = (match x.group with
        | none => (.ok (), w₁)
        | some g => w₁.closeGroup s g) ∧
      Follows iso ρ w₁ root o q (x.group.map GroupRef.id) (A ++ B) := by
  have hm : p.Mirrors iso ρ w := h.track.mirrors p (by simp)
  obtain ⟨x', hx', hout, hchain, -⟩ := hm.task
  cases hx'.symm.trans hx
  rw [hpc] at hchain
  obtain ⟨_, _, -, hnil, hxc⟩ := List.forall₂_cons_left_iff.mp hchain
  obtain rfl := List.forall₂_nil_left_iff.mp hnil
  set w₀ : World β σ := (w.modifyTask p.task fun x => { x with chain := x.chain.tail }).release top
    with hw₀
  have hrow₀ : ∀ u, w₀.tasks.get? u =
      if u = p.task then some { x with chain := [] } else w.tasks.get? u := by
    have htail : x.chain.tail = [] := by rw [hxc, List.tail_cons]
    rw [hw₀, ← htail]
    exact World.get?_modifyTask_of_get? hx _
  have hx₀ := (hrow₀ _).trans (if_pos rfl)
  set w₁ : World β σ := (w₀.modifyTask p.task (·.ended oc')).emit s
    (.taskEnd x.id x.index oc'.isOk) with hw₁
  have hrow : ∀ t, w₁.tasks.get? t = if t = p.task then some ({ x with chain := [] }.ended oc')
      else w.tasks.get? t := World.get?_modifyTask_of_rows hrow₀ _
  have hturn : Turn iso ρ ρ w w₁ p := by
    refine .own h.track hx hrow rfl (fun k => ?_) rfl (fun _ => rfl) (fun {j y} hy hj => ?_)
      fun hy _ _ => hy
    · exact Nat.le_of_eq (World.extent_modifyHandle _ top _ k).symm
    · refine World.get?_handles_modifyHandle_of_ne _ _ _ ?_ hy
      rintro rfl
      exact hj c.id hc.2 (.inl ⟨c, by simp [hpc], rfl⟩)
  have howes : Owes ρ w₁ (A ++ ([] ++ B)) p.task p.outcome :=
    .inr ⟨_, oc', (hrow _).trans (if_pos rfl), rfl, ho⟩
  refine ⟨w₁, ?_, h.track.replace (L := []) hturn .nil, ?_, ?_, h.root.replace (L := []) hturn hm howes⟩
  · have hempty : ((w₀.tasks.get? p.task).map fun x => x.chain.isEmpty).getD true = true := by
      rw [hx₀]
      rfl
    simp only [World.unwind, ← hw₀, hempty, if_true]
    cases hg : x.group with
    | none =>
        have hroot : w₀.finish s p.task oc' = _ := World.finish_root hx₀ hg
        exact hroot
    | some g =>
        have hmember : w₀.finish s p.task oc' = _ := World.finish_member hx₀ hg
        exact hmember
  · refine h.nest.replace (L := []) h.track hturn howes (fun e => absurd e (by simp)) (.inr ?_)
      (by simp) (by simp) ?_
    · intro y ref hy hg
      cases hy.symm.trans hx
      rw [hg]
      rfl
    · intro g re os rest y t e
      cases hs.symm.trans e
  · exact h.queue.keep (L := []) (by simp [Ready, hs]) (by simp) (h.queue.lined.of_schedulers rfl)

/-- **The coroutine on top of a task's chain has ended.** -/
theorem Follows.unwind (h : Follows iso ρ w root o q none (A ++ p :: B)) (hs : p.stage = .held)
    (hcalm : Calm (A ++ B)) {c top : CoroutineRef} {chain : List CoroutineRef} {oc oc' : Outcome}
    {n : Nat} (hpc : p.chain = c :: chain) (hc : c.Alike ρ top) (ho : oc.Alike Eq ρ oc')
    (hplan : World.Continues iso p.start chain oc.input p.outcome p.finish n) :
    Comes iso ρ root o (total A + n + total B) (w.unwind s p.task top oc') := by
  cases chain with
  | cons d chain =>
      obtain ⟨w', hw', hfollows⟩ := h.handOn hs hpc hc ho hplan
      refine ⟨ρ, w', _, _, hw', le_refl ρ, hfollows, hcalm.cons nofun, ?_⟩
      simp only [total_append, total_cons]
      omega
  | nil =>
      obtain ⟨rfl, hn⟩ : oc = p.outcome ∧ n = 0 := by
        generalize ho₁ : p.outcome = o₁ at hplan
        generalize hi : oc.input = input at hplan
        generalize hf : p.finish = v at hplan
        cases hplan
        exact ⟨by cases oc <;> cases o₁ <;> cases hi <;> rfl, rfl⟩
      have hm : p.Mirrors iso ρ w := h.track.mirrors p (by simp)
      obtain ⟨x, hx, -, -, -⟩ := hm.task
      obtain ⟨w₁, hw₁, hfollows⟩ := h.endTask hs hpc hc ho hx
      rw [hw₁]
      cases hg : x.group with
      | none =>
          rw [hg] at hfollows
          exact ⟨ρ, w₁, q, _, rfl, le_refl ρ, hfollows, hcalm, by simp [hn]⟩
      | some g =>
          rw [hg] at hfollows
          -- the plan that waits for the group is among the others
          obtain ⟨r, hr, re, os, rest, y, hr', hy, ht⟩ := h.nest.parent (by simp) hx hg
          have hrest : rest = [] := by
            obtain ⟨z, hz⟩ := h.nest.waits hr hr'
            exact (hz.unsettled (by simp)).1
          subst hrest
          have hr₁ : r ∈ A ++ B := by
            simp only [List.mem_append, List.mem_cons] at hr ⊢
            rcases hr with hr | rfl | hr
            · exact .inl hr
            · cases hs.symm.trans hr'
            · exact .inr hr
          obtain ⟨A', B', e⟩ := List.append_of_mem hr₁
          have htotal : total A + total B = total A' + (r.turns + total B') := by
            have := congrArg total e
            simpa using this
          rw [e] at hfollows hcalm
          obtain ⟨ρ', w', q', l, hclose, hle, hl, hturns, hheld⟩ := hfollows.closeGroup hr'
          refine ⟨ρ', w', q', _, hclose, hle, hl, hcalm.erase.cons hheld, ?_⟩
          simp only [total_append, total_cons]
          omega

/-! ### Going on from a step -/

/-- **A task goes on from the step that its coroutine ended with as the evaluation does.** -/
theorem Follows.absorb (h : Follows iso ρ w root o q none (A ++ p :: B)) (hs : p.stage = .held)
    (hcalm : Calm (A ++ B)) {c top : CoroutineRef} {chain : List CoroutineRef} {step step' : Step}
    {n : Nat} (hpc : p.chain = c :: chain) (hc : c.Alike ρ top) (hstep : step.Alike Eq ρ step')
    (hplan : World.Absorbs iso p.start c chain step p.outcome p.finish n) :
    Comes iso ρ root o (total A + n + total B) (w.absorb s p.task top step') := by
  cases hplan with
  | ret hplan =>
      cases hstep with
      | ret hv => exact h.unwind hs hcalm hpc hc (.ok hv) hplan
  | raise hplan =>
      cases hstep with
      | raise hr => exact h.unwind hs hcalm hpc hc (.error hr) hplan
  | await hclaim hplan =>
      cases hstep with
      | await ht =>
          cases ht with
          | coroutine hd =>
              obtain ⟨w', hw', hfollows⟩ := h.chain hs hd hclaim (hplan.precedes).1
                (hpc ▸ hplan)
              refine ⟨ρ, w', _, _, hw', le_refl ρ, hfollows, hcalm.cons nofun, ?_⟩
              simp only [total_append, total_cons]
              omega
  | gather hx ha hgath hcomb hplan =>
      cases hstep with
      | await ht =>
          cases ht with
          | group hg =>
              obtain ⟨x', w₁, hw₁, hx', hnone, hopen⟩ := h.openGroup hs (by simp [hpc]) hg hx ha hgath
                hcomb (hpc ▸ hplan)
              obtain ⟨q₂, C, l, os', hfollows, hl, hC, hturns⟩ := hopen.startMembers 0 rfl hx'
                (show x'.handles.drop x'.tasks.length = x'.handles by simp [hnone])
              rw [← List.append_assoc] at hfollows
              obtain ⟨ρ', w', q', l', hclose, hle, hfollows', hturns', hheld⟩ := hfollows.closeGroup hl
              refine ⟨ρ', w', q', _, hw₁.trans hclose, hle, hfollows', ?_, ?_⟩
              · refine Calm.cons ?_ hheld
                rw [List.append_assoc]
                refine hcalm.replace fun r hr => ?_
                obtain ⟨input, e⟩ := hC r hr
                rw [e]
                nofun
              · simp only [total_append, total_cons] at hturns hturns' ⊢
                omega

/-! ### Turns -/

/-- **A turn of a run makes the first resume of the plan of its task.** -/
theorem Follows.turn {m : Nat} (h : Follows iso ρ w root o (t :: q) none ps) (hcalm : Calm ps)
    (hm : total ps ≤ m) :
    ∃ w₁ n, w.dequeue s = some (t, w₁) ∧ n < total ps ∧
      Comes iso ρ root o n (w₁.step (World.resume bodies (m + 1)) s t) := by
  obtain ⟨A, p, B, input, c, chain, top, input', w₁, w₂, rfl, hs, hpc, hc, hin, rfl, hplan, hd, htake,
    hheld⟩ := h.takeUp
  rw [hpc] at hplan
  generalize hturns : p.turns = k at hplan
  cases hplan with
  | @resume _ u' _ _ _ _ step _ fuel n hu hr hl habsorb =>
      simp only [total_append, total_cons] at hm ⊢
      obtain ⟨ρ', step', w₃, hr', hstep, hle, hfollows⟩ :=
        hheld.resume rfl m hpc hc hin hu hl (by omega) hr (habsorb.precedes).1
      refine ⟨w₁, total A + n + total B, hd, by omega, ?_⟩
      have hstep' : w₁.step (World.resume bodies (m + 1)) s p.task = w₃.absorb s p.task top step' := by
        simp only [World.step, htake, hr']
      obtain ⟨ρ'', w', q', ps', hw', hle', hrest⟩ :=
        hfollows.absorb rfl hcalm.erase hpc (hc.mono hle) hstep habsorb
      exact ⟨ρ'', w', q', ps', hstep'.trans hw', le_trans hle hle', hrest⟩

/-- Once no task is ready every plan has been carried out: a task that waited would have a member that
waits as well, with a greater number. -/
theorem Follows.over (h : Follows iso ρ w root o [] none ps) (hcalm : Calm ps) : ps = [] := by
  by_contra hne
  have hwaits : ∀ p ∈ ps, ∃ r ∈ ps, p.task < r.task := by
    intro p hp
    cases hs : p.stage with
    | ready input => exact absurd (h.queue.mem_iff.mpr ⟨p, hp, rfl, input, hs⟩) (by simp)
    | held => exact absurd hs (hcalm p hp)
    | waits g re os rest =>
        obtain ⟨x, hx⟩ := h.nest.waits hp hs
        obtain ⟨-, u, hu, y, hy, hn⟩ := hx.unsettled (by simp)
        obtain ⟨o', -, ho⟩ := exists_of_forall₂ hx.owes hu
        rcases ho with ⟨r, hr, rfl, -⟩ | ⟨z, o₁, hz, hz', -⟩
        · exact ⟨r, hr, (hx.members _ hu).1⟩
        · cases hy.symm.trans hz
          cases hn.symm.trans hz'
  have hlt : ∀ n, ∃ p ∈ ps, n ≤ p.task := by
    intro n
    induction n with
    | zero =>
        obtain ⟨p, hp⟩ := List.exists_mem_of_ne_nil ps hne
        exact ⟨p, hp, Nat.zero_le _⟩
    | succ n ih =>
        obtain ⟨p, hp, hn⟩ := ih
        obtain ⟨r, hr, hlt⟩ := hwaits p hp
        exact ⟨r, hr, Nat.lt_of_le_of_lt hn hlt⟩
  obtain ⟨p, hp, hn⟩ := hlt w.tasks.size
  exact Nat.not_lt_of_le hn (h.track.mirrors p hp).lt_size

/-- **A run that follows plans ends with the outcome of the evaluation for its root.** -/
theorem Follows.drain {m : Nat} (fuel : Nat) (h : Follows iso ρ w root o q none ps) (hcalm : Calm ps)
    (hm : total ps ≤ m) (hfuel : total ps < fuel) :
    ∃ ρ' w' o', World.drain (World.resume bodies (m + 1)) s fuel w = (.ok (), w') ∧ ρ ≤ ρ' ∧
      ρ'.OneToOne ∧ w'.taskOutcome? root = some o' ∧ o.Alike Eq ρ' o' := by
  induction fuel generalizing w ρ q ps with
  | zero => omega
  | succ fuel ih =>
      cases q with
      | nil =>
          obtain rfl := h.over hcalm
          obtain ⟨x, ctx, hx, -, hc, hq⟩ := h.queue.lined
          rcases h.root with ⟨r, hr, -⟩ | ⟨y, o', hy, ho, ha⟩
          · cases hr
          · refine ⟨ρ, w, o', ?_, le_refl ρ, h.track.oneToOne, (World.taskOutcome?_of_get? hy).trans ho,
              ha⟩
            simp only [World.drain, World.dequeue, World.context?, hx, Option.bind_some, hc, hq]
      | cons t q =>
          obtain ⟨w₁, n, hd, hn, ρ', w', q', ps', hstep, hle, hfollows, hcalm', rfl⟩ :=
            h.turn hcalm hm
          obtain ⟨ρ'', w'', o', hdrain, hle', hout⟩ :=
            ih hfollows hcalm' (by omega) (by omega)
          exact ⟨ρ'', w'', o', by simp only [World.drain, hd, hstep, hdrain], le_trans hle hle', hout⟩

end TaskPlan

end Coroutines
