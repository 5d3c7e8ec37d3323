import Coroutines.Proofs.Isolation.Gathering

/-!
# Closing groups along a plan

A task that has ended settles its group if it was the last of the members.  What the evaluation
combines from the outcomes of the members agrees with what the run settles, and the task that waits
for the group goes on with it.
-/

namespace Coroutines

/-- The values of a group's members that are alike, or one exception. -/
inductive Gathered (ρ : Names) :
    Except Record (List Value) → Except Record (List Value) → Prop
  | ok {vs vs' : List Value} (h : List.Forall₂ (Value.Alike Eq ρ) vs vs') :
      Gathered ρ (.ok vs) (.ok vs')
  | error (r : Record) : Gathered ρ (.error r) (.error r)

theorem Gathered.cons {ρ : Names} {v v' : Value} {a b : Except Record (List Value)}
    (hv : v.Alike Eq ρ v') (h : Gathered ρ a b) :
    Gathered ρ (a.map (v :: ·)) (b.map (v' :: ·)) := by
  cases h with
  | ok h => exact .ok (.cons hv h)
  | error r => exact .error r

theorem Gathered.outcome {ρ : Names} {a b : Except Record (List Value)} (h : Gathered ρ a b) :
    Outcome.Alike Eq ρ (a.map .list) (b.map .list) := by
  cases h with
  | ok h => exact .ok (.list h)
  | error r => exact .error rfl

namespace World

/-- **The outcomes that the members came to are settled as the evaluation combines them**, with new
names for the failures that become values. -/
theorem gatherOutcomes_alike {ρ : Names} (re : Bool) {ys : List Task} {os : List Outcome}
    {i j : Nat} (top : Nat)
    (h : List.Forall₂ (fun y o => ∃ o', y.outcome = some o' ∧ Outcome.Alike Eq ρ o o') ys os)
    (hone : ρ.OneToOne) (hgap : ∀ {a b}, ρ .identity a b → a < i ∨ top ≤ a)
    (hbound : ∀ {a b}, ρ .identity a b → b < j) (htop : (combine re os i).2 ≤ top) :
    ∃ ρ' values j', gatherOutcomes re ys j = (.ok values, j') ∧ j ≤ j' ∧ ρ ≤ ρ' ∧
      ρ'.OneToOne ∧ (∀ {k a b}, ρ' k a b → ρ k a b ∨
        k = .identity ∧ i ≤ a ∧ a < (combine re os i).2 ∧ b < j') ∧
      Gathered ρ' (combine re os i).1 values := by
  induction os generalizing ρ ys i j with
  | nil =>
      obtain rfl := List.forall₂_nil_right_iff.mp h
      exact ⟨ρ, .ok [], j, rfl, Nat.le_refl j, fun _ _ _ e => e, hone, .inl, .ok .nil⟩
  | cons o os ih =>
      obtain ⟨y, ys, ⟨o', ho, ha⟩, hys, rfl⟩ := List.forall₂_cons_right_iff.mp h
      cases ha with
      | @ok v v' hv =>
          obtain ⟨ρ', values, j', he, hj, hle, hone', hnew, hg⟩ := ih hys hone hgap hbound htop
          refine ⟨ρ', values.map (v' :: ·), j', ?_, hj, hle, hone', hnew, hg.cons (hv.mono hle)⟩
          simp only [gatherOutcomes, ho, he]
          rfl
      | @error r _ hr =>
          subst hr
          cases re with
          | false =>
              refine ⟨ρ, .error r, j, ?_, Nat.le_refl j, fun _ _ _ e => e, hone, .inl, .error r⟩
              simp [gatherOutcomes, ho]
          | true =>
              have hlt : i < (combine true os (i + 1)).2 := le_combine true os (i + 1)
              have htop' : (combine true os (i + 1)).2 ≤ top := htop
              have hadd : (ρ.add .identity i j).OneToOne :=
                hone.add (fun b e => by rcases hgap e with h | h <;> omega)
                  fun a e => Nat.lt_irrefl _ (hbound e)
              have hmono : List.Forall₂ (fun y o => ∃ o', y.outcome = some o' ∧
                  Outcome.Alike Eq (ρ.add .identity i j) o o') ys os :=
                hys.imp fun _ _ ⟨o', e, h⟩ => ⟨o', e, h.mono Names.le_add⟩
              have hgap' : ∀ {a b}, ρ.add .identity i j .identity a b → a < i + 1 ∨ top ≤ a := by
                rintro a b (e | ⟨-, rfl, rfl⟩)
                · exact (hgap e).imp_left Nat.lt_succ_of_lt
                · exact .inl (Nat.lt_succ_self _)
              have hbound' : ∀ {a b}, ρ.add .identity i j .identity a b → b < j + 1 := by
                rintro a b (e | ⟨-, rfl, rfl⟩)
                · exact Nat.lt_succ_of_lt (hbound e)
                · exact Nat.lt_succ_self _
              obtain ⟨ρ', values, j', he, hj, hle, hone', hnew, hg⟩ :=
                ih hmono hadd hgap' hbound' htop'
              refine ⟨ρ', values.map (.exception j r :: ·), j', ?_, by omega,
                fun _ _ _ e => hle _ _ _ (Names.le_add _ _ _ e), hone', fun {k a b} e => ?_,
                hg.cons (.exception (hle _ _ _ Names.add_self) rfl)⟩
              · simp only [gatherOutcomes, ho, he, if_true]
                rfl
              · rcases hnew e with (e | ⟨rfl, rfl, rfl⟩) | ⟨e, h₁, h₂, h₃⟩
                · exact .inl e
                · exact .inr ⟨rfl, Nat.le_refl _, hlt, by omega⟩
                · exact .inr ⟨e, by omega, h₂, h₃⟩

end World

namespace TaskPlan

variable {β σ : Type} {w w' : World β σ} {s t : Nat} {q : List Nat} {bodies : Bodies β σ}
  {constant : σ → Prop} {iso : Isolation bodies s constant} {ρ ρ' : Names} {p : TaskPlan β σ}
  {A B ps : List (TaskPlan β σ)} {root : Nat} {o : Outcome}

/-- A task with an outcome has the outcome that it owes. -/
theorem Owes.outcome (h : Owes ρ w ps t o) (htrack : Track iso ρ w ps)
    (ht : (w.taskOutcome? t).isSome = true) :
    ∃ x o', w.tasks.get? t = some x ∧ x.outcome = some o' ∧ o.Alike Eq ρ o' := by
  rcases h with ⟨r, hr, rfl, -⟩ | h
  · obtain ⟨y, hy, hn, -⟩ := (htrack.mirrors r hr).task
    rw [World.taskOutcome?_of_get? hy, hn] at ht
    cases ht
  · exact h

theorem Owes.outcomes (htrack : Track iso ρ w ps) {ts : List Nat} {os : List Outcome}
    (ht : ∀ t ∈ ts, (w.taskOutcome? t).isSome = true) (h : List.Forall₂ (Owes ρ w ps) ts os) :
    List.Forall₂ (fun y o => ∃ o', y.outcome = some o' ∧ Outcome.Alike Eq ρ o o')
      (ts.filterMap w.tasks.get?) os := by
  induction h with
  | nil => exact .nil
  | @cons t o ts os ho _ ih =>
      obtain ⟨y, o', hy, hyo, ha⟩ := ho.outcome htrack (ht t List.mem_cons_self)
      rw [List.filterMap_cons_some hy]
      exact .cons ⟨o', hyo, ha⟩ (ih fun u hu => ht u (List.mem_cons_of_mem _ hu))

/-- Plans of one task are the same plan. -/
theorem Track.eq_of_task (h : Track iso ρ w (A ++ p :: B)) {r : TaskPlan β σ} (hr : r ∈ A ++ p :: B)
    (e : r.task = p.task) : r = p := by
  by_contra hne
  refine h.task_ne (q := r) ?_ e
  simp only [List.mem_append, List.mem_cons] at hr ⊢
  tauto

/-- A group that has not come to its end stays, and its task goes on waiting. -/
theorem Follows.keepGroup {g : Nat} {re : Bool} {os : List Outcome}
    (h : Follows iso ρ w root o q (some g) (A ++ p :: B))
    (hs : p.stage = .waits g re os []) {x : Group} (hx : w.groups.get? g = some x)
    (hn : ∃ t ∈ x.tasks, ∃ y, w.tasks.get? t = some y ∧ y.outcome = none) :
    Follows iso ρ w root o q none (A ++ p :: B) := by
  refine ⟨h.track, ⟨fun {r} hr {g' re' os' rest'} hr' => ?_, h.nest.parent⟩, h.queue, h.root⟩
  obtain ⟨y, hy⟩ := h.nest.waits hr hr'
  refine ⟨y, hy.row, hy.awaitedBy, hy.returnExceptions, hy.length, hy.left, hy.owes, hy.members,
    fun _ => ?_⟩
  by_cases e : g' = g
  · subst e
    obtain ⟨z, hz⟩ := h.nest.waits (by simp) hs
    cases hy.row.symm.trans hx
    cases hz.row.symm.trans hx
    obtain rfl := h.track.eq_of_task hr (Option.some.inj (hy.awaitedBy.symm.trans hz.awaitedBy))
    cases hs.symm.trans hr'
    exact ⟨rfl, hn⟩
  · exact hy.unsettled fun e' => e (Option.some.inj e').symm

/-- The members of a group have their tasks when none is left to be started. -/
theorem Gathering.length_eq {opened : Option Nat} {g : Nat} {re : Bool} {os : List Outcome}
    {x : Group} (h : Gathering ρ w opened ps t g re os [] x) :
    x.tasks.length = x.handles.length := by
  have hle := h.length
  have hleft := congrArg List.length (List.forall₂_nil_left_iff.mp h.left)
  rw [List.length_drop, List.length_nil] at hleft
  omega

section

variable {z : Task} {oc : Outcome} {identity n' : Nat}

/-- The run changes at the task that is handed what its group has come to, with new names for the
failures that become values. -/
theorem Turn.settle (h : Track iso ρ w (A ++ p :: B)) (hz : w.tasks.get? p.task = some z)
    (hands : World.Hands s p.task z oc n' w w') (hn : w.nextIdentity ≤ n') (hle : ρ ≤ ρ')
    (hone : ρ'.OneToOne)
    (hnew : ∀ {k i j}, ρ' k i j → ρ k i j ∨
      k = .identity ∧ p.start.nextIdentity ≤ i ∧ i < identity ∧ j < n')
    (hord : { p.start with nextIdentity := identity }.Precedes p.finish) : Turn iso ρ ρ' w w' p where
  le := hle
  oneToOne := hone
  bound {k i j} e := by
    have hextent : w.extent k ≤ w'.extent k := by
      cases k
      · exact Nat.le_of_eq (congrArg Table.size hands.handles.symm)
      · exact Nat.le_of_eq (congrArg Table.size hands.groups.symm)
      · exact Nat.le_trans hn (Nat.le_of_eq hands.nextIdentity.symm)
    rcases hnew e with e | ⟨rfl, -, -, hj⟩
    · exact Nat.lt_of_lt_of_le (h.bound e) hextent
    · exact Nat.lt_of_lt_of_eq hj hands.nextIdentity.symm
  shared hc := hands.shared ▸ hc
  mode t := (World.mode_of_schedulers hands.schedulers t).trans (World.mode_enqueue w s p.task t)
  handles hy _ := hands.handles ▸ hy
  groups hy _ _ := hands.groups ▸ hy
  tasks _ hne := (hands.rows _).trans (if_neg hne)
  group hy := by
    cases hy.symm.trans hz
    exact ⟨_, (hands.rows _).trans (if_pos rfl), rfl⟩
  fresh e := (hnew e).imp_right fun ⟨hk, hi, hi', _⟩ =>
    ⟨_, hord, by cases hk; exact hi, by cases hk; exact hi', by cases hk; trivial⟩

/-- The plan goes on with what the evaluation combines. -/
theorem Mirrors.settle {l : TaskPlan β σ} (hm : p.Mirrors iso ρ w) (hz : w.tasks.get? p.task = some z)
    (hands : World.Hands s p.task z oc n' w w') (hturn : Turn iso ρ ρ' w w' p)
    (hnew : ∀ {k i j}, ρ' k i j → ρ k i j ∨
      k = .identity ∧ p.start.nextIdentity ≤ i ∧ i < identity ∧ j < n')
    (hwithin : l.Within p) (hplan : l.Planned iso) (htask : l.task = p.task) (hchain : l.chain = p.chain)
    (hstart : l.start = { p.start with nextIdentity := identity }) (hgives : l.stage.Gives ρ' oc.input) :
    l.Mirrors iso ρ' w' := by
  refine hm.change hwithin hplan hturn.le hturn.mode (fun _ _ hy _ => hands.handles ▸ hy)
    (fun _ _ hy _ => hands.groups ▸ hy) (fun {k i j} e => ?_) (hchain ▸ hm.nodup)
    (fun {c} hc {j} hj => ?_) ?_
  · rcases hnew e with e | ⟨rfl, -, hi, -⟩
    · exact .inl e
    · exact .inr (.inl ⟨l.start, .refl _, hstart ▸ hi, trivial⟩)
  · rw [hchain] at hc
    obtain ⟨j', hj'⟩ := hm.exists_name hc
    obtain rfl := (hturn.oneToOne (hturn.le _ _ _ hj') hj).mp rfl
    obtain ⟨y, y', hy, hy', ha, hf⟩ := hm.held hc hj'
    exact ⟨y, y', hstart ▸ hy, hands.handles ▸ hy', ha.mono hturn.le, hf⟩
  · obtain ⟨z', hz', hout, hzc, -⟩ := hm.task
    cases hz.symm.trans hz'
    rw [htask, hchain]
    exact ⟨_, (hands.rows _).trans (if_pos rfl), hout, hzc.imp fun _ _ hc => hc.mono hturn.le, hgives⟩

end

/-- A group whose members all have an outcome is settled as the evaluation combines the outcomes, and
the task that waits for it becomes ready. -/
theorem Follows.settleGroup {g : GroupRef} {re : Bool} {os : List Outcome}
    (h : Follows iso ρ w root o q (some g.id) (A ++ p :: B))
    (hs : p.stage = .waits g.id re os []) (hq : w.quiescent g = true) :
    ∃ ρ' w' q' l, w.closeGroup s g = (.ok (), w') ∧
      ρ ≤ ρ' ∧ Follows iso ρ' w' root o q' none (A ++ l :: B) ∧ l.turns = p.turns ∧
      l.stage ≠ .held := by
  have hm : p.Mirrors iso ρ w := h.track.mirrors p (by simp)
  obtain ⟨x, hgath⟩ := h.nest.waits (by simp) hs
  have hall := (World.quiescent_iff hgath.row hgath.length_eq).mp hq
  have hplanned := hm.planned
  simp only [Planned, hs] at hplanned
  obtain ⟨hne, more, v, values, identity, n₀, n, hgathers, hcomb, hplan, hturns⟩ := hplanned
  cases hgathers
  rw [List.append_nil] at hcomb
  obtain ⟨z, hz, -⟩ := hm.task
  have hord := (hplan.precedes).1
  have hpre := World.Precedes.nextIdentity (u := p.start)
    ((World.le_combine _ _ _).trans_eq (congrArg Prod.snd hcomb))
  -- what the run settles, from the outcomes of the members
  obtain ⟨ρ', values', n', hgo, hn', hle, hone, hnew, hg⟩ :=
    World.gatherOutcomes_alike (i := p.start.nextIdentity) (j := w.nextIdentity) re
      p.finish.nextIdentity (Owes.outcomes h.track hall hgath.owes) h.track.oneToOne
      (fun e => hm.gap e) (fun e => h.track.bound e)
      ((congrArg Prod.snd hcomb).trans_le (hord.extent .identity))
  rw [hcomb] at hg hnew
  have hsettle : w.settle g = (.ok (values'.map .list), { w with nextIdentity := n' }) := by
    simp only [World.settle, hgath.row, hgath.returnExceptions, hgo]
    rfl
  obtain ⟨w', hclose, hands⟩ :=
    World.closeGroup_of_settle (s := s) hgath.row hgath.awaitedBy hq hsettle hz
  have hturn : Turn iso ρ ρ' w w' p := .settle h.track hz hands hn' hle hone hnew hord
  set l : TaskPlan β σ := { p with
    start := { p.start with nextIdentity := identity }, turns := n,
    stage := .ready (Outcome.input (values.map .list)) } with hl
  have hlm : l.Mirrors iso ρ' w' :=
    hm.settle hz hands hturn hnew ⟨hpre, hord, .refl _⟩ ⟨hne, hplan⟩ rfl rfl rfl hg.outcome.input
  refine ⟨ρ', w', q ++ [p.task], l, hclose, hle, ?_, by simp [hturns, hl], by simp [hl]⟩
  refine h.become hturn ⟨hpre, hord, .refl _⟩ rfl rfl (fun c hc => .inl ⟨c, hc, rfl⟩) hlm
    (fun {g'} e => .inr fun {y} hy => ?awaited) (fun e => by cases e) ?members
    (h.queue.requeue (by simp [Ready, hs]) rfl ⟨_, rfl⟩ (fun r => h.track.task_ne)
      ((Lined.enqueue h.queue.lined).of_schedulers hands.schedulers))
  case awaited =>
    cases e
    cases hy.symm.trans hgath.row
    exact hgath.awaitedBy
  case members =>
    -- no member of the group is left without an outcome
    rintro g' re' os' rest' y t e hy ht ⟨y', hy', hn⟩
    cases hs.symm.trans e
    cases hy.symm.trans hgath.row
    have hsome := hall t ht
    rw [World.taskOutcome?_of_get? hy', hn] at hsome
    cases hsome

/-- **A group is closed as the evaluation goes on**: if its members all have an outcome, the task that
waits for it becomes ready, else it goes on waiting. -/
theorem Follows.closeGroup {g : GroupRef} {re : Bool} {os : List Outcome}
    (h : Follows iso ρ w root o q (some g.id) (A ++ p :: B))
    (hs : p.stage = .waits g.id re os []) :
    ∃ ρ' w' q' l, w.closeGroup s g = (.ok (), w') ∧
      ρ ≤ ρ' ∧ Follows iso ρ' w' root o q' none (A ++ l :: B) ∧ l.turns = p.turns ∧
      l.stage ≠ .held := by
  by_cases hq : w.quiescent g = true
  · exact h.settleGroup hs hq
  · obtain ⟨x, hgath⟩ := h.nest.waits (by simp) hs
    refine ⟨ρ, w, q, p, by simp [World.closeGroup, hq], le_refl ρ, h.keepGroup hs hgath.row ?_, rfl,
      by simp [hs]⟩
    rw [World.quiescent_iff hgath.row hgath.length_eq] at hq
    push Not at hq
    obtain ⟨t, ht, hn⟩ := hq
    obtain ⟨-, y, -, hy, -⟩ := hgath.members t ht
    rw [World.taskOutcome?_of_get? hy] at hn
    exact ⟨t, ht, y, hy, by simpa using hn⟩

end TaskPlan

end Coroutines
