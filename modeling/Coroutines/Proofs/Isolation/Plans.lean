import Coroutines.Proofs.Isolation.Order

/-!
# Plans of tasks

A run advances the members of a group in turns, where the evaluation without a queue drives them one
after another.  So each task of a run follows a stretch of that evaluation of its own, its `TaskPlan`:
what is left to do for the task, from a world of the evaluation to another.  A plan mirrors the
run (`TaskPlan.Mirrors`) when the coroutines of the task agree with those of the plan, and when
whatever the plan is going to claim, and the run has created already, is still fresh in the run.
-/

namespace Coroutines

/-- How far the plan of a task is carried out. -/
inductive Stage where
  /-- The task is in the queue, with an input. -/
  | ready (input : Input)
  /-- The task is being resumed. -/
  | held
  /-- The task waits for a group of the run, of which the members so far have these outcomes to come
  to, and the rest has no task yet. -/
  | waits (group : Nat) (returnExceptions : Bool) (outcomes : List Outcome)
      (rest : List CoroutineRef)

namespace Stage

/-- The input that the task of a plan is resumed with next. -/
def Gives (ρ : Names) (input : Input) : Stage → Prop
  | .ready i => i.Alike Eq ρ input
  | .held => input = .start
  | .waits .. => True

theorem Gives.mono {ρ ρ' : Names} (hle : ρ ≤ ρ') {input : Input} {stage : Stage}
    (h : stage.Gives ρ input) : stage.Gives ρ' input := by
  cases stage with
  | ready i => exact Input.Alike.mono hle h
  | held => exact h
  | waits => trivial

end Stage

/-- What is left to do for a task of a run, as a stretch of the evaluation without a queue. -/
structure TaskPlan (β σ : Type) where
  task : Nat
  start : World β σ
  finish : World β σ
  /-- The chain of the task, as the evaluation names it. -/
  chain : List CoroutineRef
  outcome : Outcome
  /-- The number of resumes left. -/
  turns : Nat
  stage : Stage

namespace TaskPlan

variable {β σ : Type}

/-- The evaluation gets from the start of a plan to its finish. -/
def Planned {bodies : Bodies β σ} {s : Nat} {constant : σ → Prop} (iso : Isolation bodies s constant)
    (p : TaskPlan β σ) : Prop :=
  match p.stage with
  | .ready input => p.chain ≠ [] ∧
      World.Continues iso p.start p.chain input p.outcome p.finish p.turns
  | .held => True
  | .waits _ re os rest => p.chain ≠ [] ∧ ∃ more u values identity m n,
      World.Gathers iso p.start rest more u m ∧
      combine re (os ++ more) u.nextIdentity = (values, identity) ∧
      World.Continues iso { u with nextIdentity := identity } p.chain
        (Outcome.input (values.map .list)) p.outcome p.finish n ∧ p.turns = m + n

/-- A plan is going to claim a coroutine that exists at its start. -/
def Claims (p : TaskPlan β σ) (i : Nat) : Prop :=
  ∃ x, p.start.handles.get? i = some x ∧ x.Fresh ∧
    ∀ y, p.finish.handles.get? i = some y → ¬ y.Fresh

/-- A plan is going to await a group that exists at its start. -/
def Opens (p : TaskPlan β σ) (i : Nat) : Prop :=
  ∃ x, p.start.groups.get? i = some x ∧ x.awaitedBy = none ∧
    ∀ y, p.finish.groups.get? i = some y → y.awaitedBy ≠ none

/-- A plan is a part of another. -/
structure Within (l p : TaskPlan β σ) : Prop where
  start : p.start.Precedes l.start
  order : l.start.Precedes l.finish
  finish : l.finish.Precedes p.finish

/-- Plans of different tasks, the first of which comes first in the evaluation. -/
structure Apart (p q : TaskPlan β σ) : Prop where
  order : p.finish.Precedes q.start
  task : p.task ≠ q.task
  chain : ∀ c ∈ p.chain, ∀ d ∈ q.chain, c.id ≠ d.id

/-- The run and a plan agree on what the plan holds and on what it is going to take. -/
structure Mirrors {bodies : Bodies β σ} {s : Nat} {constant : σ → Prop} (iso : Isolation bodies s constant) (ρ : Names)
    (w : World β σ) (p : TaskPlan β σ) : Prop where
  planned : p.Planned iso
  order : p.start.Precedes p.finish
  mode : ∀ t, p.start.mode t = w.mode t
  /-- What the plan is going to create has no name in the run. -/
  gap : ∀ {k i j}, ρ k i j → i < p.start.extent k ∨ p.finish.extent k ≤ i
  nodup : (p.chain.map CoroutineRef.id).Nodup
  held : ∀ {c}, c ∈ p.chain → ∀ {j}, ρ .coroutine c.id j →
    ∃ x x', p.start.handles.get? c.id = some x ∧ w.handles.get? j = some x' ∧
      x.Alike iso.alike ρ x' ∧ ¬ x.Fresh ∧ ¬ x'.Fresh
  claims : ∀ {i j}, p.Claims i → ρ .coroutine i j →
    ∃ x x', p.start.handles.get? i = some x ∧ w.handles.get? j = some x' ∧
      x.Alike iso.alike ρ x' ∧ x'.Fresh
  opens : ∀ {i j}, p.Opens i → ρ .group i j →
    ∃ x x', p.start.groups.get? i = some x ∧ w.groups.get? j = some x' ∧ x.Alike ρ x' ∧ x'.Fresh
  task : ∃ x, w.tasks.get? p.task = some x ∧ x.outcome = none ∧
    List.Forall₂ (CoroutineRef.Alike ρ) p.chain x.chain ∧ p.stage.Gives ρ x.inbox

variable {bodies : Bodies β σ} {s : Nat} {constant : σ → Prop} {iso : Isolation bodies s constant} {ρ ρ' : Names}
  {w w' : World β σ} {p q l : TaskPlan β σ}

/-! ### Parts of plans -/

theorem Within.claims (h : l.Within p) {i : Nat} (hi : i < p.start.extent .coroutine)
    (hl : l.Claims i) : p.Claims i := by
  obtain ⟨x, hx, hf, hn⟩ := hl
  refine ⟨x, h.start.handles hx hf hi, hf, fun y hy hfy => hn y ?_ hfy⟩
  exact h.finish.handles hy hfy (Nat.lt_of_lt_of_le hi ((h.start.trans h.order).extent _))

theorem Within.opens (h : l.Within p) {i : Nat} (hi : i < p.start.extent .group)
    (hl : l.Opens i) : p.Opens i := by
  obtain ⟨x, hx, hf, hn⟩ := hl
  refine ⟨x, h.start.groups hx hf hi, hf, fun y hy hfy => hn y ?_ hfy⟩
  exact h.finish.groups hy hfy (Nat.lt_of_lt_of_le hi ((h.start.trans h.order).extent _))

/-- A name that a part of a plan uses and that the run knows is older than the plan. -/
theorem Mirrors.older (hp : p.Mirrors iso ρ w) (h : l.Within p) {k : NameKind} {i j : Nat}
    (hi : i < l.start.extent k) (hij : ρ k i j) : i < p.start.extent k := by
  have h₁ := h.order.extent k
  have h₂ := h.finish.extent k
  rcases hp.gap hij with hi' | hi' <;> omega

/-- A part of a plan mirrors a world that the run came to, if it agrees on the chain and on the task:
what it is going to take stayed as it was, and new pairs of names agree. -/
theorem Mirrors.change (hp : p.Mirrors iso ρ w) (hl : l.Within p) (hplan : l.Planned iso)
    (hle : ρ ≤ ρ') (hmode : ∀ t, w'.mode t = w.mode t)
    (hclaims : ∀ {i j x}, l.Claims i → ρ .coroutine i j → w.handles.get? j = some x → x.Fresh →
      w'.handles.get? j = some x)
    (hopens : ∀ {i j x}, l.Opens i → ρ .group i j → w.groups.get? j = some x → x.Fresh →
      w'.groups.get? j = some x)
    (hnew : ∀ {k i j}, ρ' k i j → ρ k i j ∨ (∃ v, v.Precedes l.start ∧ i < v.extent k ∧
      World.Paired iso.alike ρ' v w' k i j) ∨ l.finish.extent k ≤ i)
    (hnodup : (l.chain.map CoroutineRef.id).Nodup)
    (hheld : ∀ {c}, c ∈ l.chain → ∀ {j}, ρ' .coroutine c.id j →
      ∃ x x', l.start.handles.get? c.id = some x ∧ w'.handles.get? j = some x' ∧
        x.Alike iso.alike ρ' x' ∧ ¬ x.Fresh ∧ ¬ x'.Fresh)
    (htask : ∃ x, w'.tasks.get? l.task = some x ∧ x.outcome = none ∧
      List.Forall₂ (CoroutineRef.Alike ρ') l.chain x.chain ∧ l.stage.Gives ρ' x.inbox) :
    l.Mirrors iso ρ' w' where
  planned := hplan
  order := hl.order
  mode t := by rw [hl.start.mode, hp.mode, hmode]
  gap {k i j} hij := by
    have h₁ := hl.start.extent k
    have h₂ := hl.finish.extent k
    rcases hnew hij with h | ⟨v, hv, hi, -⟩ | h
    · rcases hp.gap h with h | h <;> omega
    · exact .inl (Nat.lt_of_lt_of_le hi (hv.extent k))
    · exact .inr h
  nodup := hnodup
  held := hheld
  claims {i j} hc hij := by
    obtain ⟨x, hx, hf, -⟩ := id hc
    have hlt : i < l.start.extent .coroutine := Table.lt_size_of_get? hx
    rcases hnew hij with h | ⟨v, hv, hi, hpair⟩ | h
    · obtain ⟨y, y', hy, hy', ha, hf'⟩ := hp.claims (hl.claims (hp.older hl hlt h) hc) h
      have hxy : p.start.handles.get? i = some x := hl.start.handles hx hf (hp.older hl hlt h)
      obtain rfl := Option.some.inj (hy.symm.trans hxy)
      exact ⟨y, y', hx, hclaims hc h hy' hf', ha.mono hle, hf'⟩
    · obtain ⟨y', hy', hf', ha⟩ := hpair (hv.handles hx hf hi) hf
      exact ⟨x, y', hx, hy', ha, hf'⟩
    · have := hl.order.extent .coroutine
      omega
  opens {i j} hc hij := by
    obtain ⟨x, hx, hf, -⟩ := id hc
    have hlt : i < l.start.extent .group := Table.lt_size_of_get? hx
    rcases hnew hij with h | ⟨v, hv, hi, hpair⟩ | h
    · obtain ⟨y, y', hy, hy', ha, hf'⟩ := hp.opens (hl.opens (hp.older hl hlt h) hc) h
      have hxy : p.start.groups.get? i = some x := hl.start.groups hx hf (hp.older hl hlt h)
      obtain rfl := Option.some.inj (hy.symm.trans hxy)
      exact ⟨y, y', hx, hopens hc h hy' hf', ha.mono hle, hf'⟩
    · obtain ⟨y', hy', hf', ha⟩ := hpair (hv.groups hx hf hi) hf
      exact ⟨x, y', hx, hy', ha, hf'⟩
    · have := hl.order.extent .group
      omega
  task := htask

/-! ### Plans beside one another -/

/-- A plan has a coroutine in its chain or is going to claim it. -/
def Uses (p : TaskPlan β σ) (i : Nat) : Prop := (∃ c ∈ p.chain, c.id = i) ∨ p.Claims i

/-- The coroutines of a chain have names in the run. -/
theorem Mirrors.exists_name (hp : p.Mirrors iso ρ w) {c : CoroutineRef} (hc : c ∈ p.chain) :
    ∃ j, ρ .coroutine c.id j := by
  obtain ⟨x, -, -, hchain, -⟩ := hp.task
  obtain ⟨c', -, h⟩ := exists_of_forall₂ hchain hc
  exact ⟨c'.id, h.2⟩

theorem Mirrors.lt_size (hp : p.Mirrors iso ρ w) : p.task < w.tasks.size := by
  obtain ⟨x, hx, -⟩ := hp.task
  exact Table.lt_size_of_get? hx

/-- What one plan is going to claim, a later plan does not find fresh. -/
theorem Apart.not_claims (h : p.Apart q) (ho : p.start.Precedes p.finish) {i : Nat}
    (hp : p.Claims i) : ¬ q.Claims i := by
  rintro ⟨y, hy, hfy, -⟩
  obtain ⟨x, hx, -, hn⟩ := hp
  have hlt : i < p.start.extent .coroutine := Table.lt_size_of_get? hx
  exact hn y (h.order.handles hy hfy (Nat.lt_of_lt_of_le hlt (ho.extent _))) hfy

theorem Apart.not_opens (h : p.Apart q) (ho : p.start.Precedes p.finish) {i : Nat}
    (hp : p.Opens i) : ¬ q.Opens i := by
  rintro ⟨y, hy, hfy, -⟩
  obtain ⟨x, hx, -, hn⟩ := hp
  have hlt : i < p.start.extent .group := Table.lt_size_of_get? hx
  exact hn y (h.order.groups hy hfy (Nat.lt_of_lt_of_le hlt (ho.extent _))) hfy

/-- What a chain holds is not fresh in the run, so that no other plan is going to claim it. -/
theorem Mirrors.not_claims (hp : p.Mirrors iso ρ w) (hq : q.Mirrors iso ρ w) {c : CoroutineRef}
    (hc : c ∈ p.chain) : ¬ q.Claims c.id := by
  intro hi
  obtain ⟨j, hj⟩ := hp.exists_name hc
  obtain ⟨-, x', -, hx', -, -, hn⟩ := hp.held hc hj
  obtain ⟨-, y', -, hy', -, hf⟩ := hq.claims hi hj
  exact hn (Option.some.inj (hx'.symm.trans hy') ▸ hf)

/-- Plans beside one another use different coroutines. -/
theorem Apart.not_uses (h : p.Apart q) (hp : p.Mirrors iso ρ w) (hq : q.Mirrors iso ρ w) {i : Nat}
    (hi : p.Uses i) : ¬ q.Uses i := by
  rcases hi with ⟨c, hc, rfl⟩ | hi <;> rintro (⟨d, hd, e⟩ | hi')
  · exact h.chain c hc d hd e.symm
  · exact hp.not_claims hq hc hi'
  · exact hq.not_claims hp hd (e ▸ hi)
  · exact h.not_claims hp.order hi hi'

/-- A plan mirrors a world that the run came to, if the rows that it relies on stayed. -/
theorem Mirrors.frame (hq : q.Mirrors iso ρ w) (hle : ρ ≤ ρ') (hone : ρ'.OneToOne)
    (hmode : ∀ t, w'.mode t = w.mode t)
    (hrows : ∀ {i j x}, q.Uses i → ρ .coroutine i j → w.handles.get? j = some x →
      w'.handles.get? j = some x)
    (hopens : ∀ {i j x}, q.Opens i → ρ .group i j → w.groups.get? j = some x → x.Fresh →
      w'.groups.get? j = some x)
    (hnew : ∀ {k i j}, ρ' k i j → ρ k i j ∨ (∃ v, v.Precedes q.start ∧ i < v.extent k ∧
      World.Paired iso.alike ρ' v w' k i j) ∨ q.finish.extent k ≤ i)
    (htask : w'.tasks.get? q.task = w.tasks.get? q.task) : q.Mirrors iso ρ' w' := by
  refine hq.change ⟨.refl _, hq.order, .refl _⟩ hq.planned hle hmode
    (fun h hij hx _ => hrows (.inr h) hij hx) hopens hnew hq.nodup (fun {c} hc {j} hj => ?_) ?_
  · obtain ⟨j', hj'⟩ := hq.exists_name hc
    obtain rfl := (hone (hle _ _ _ hj') hj).mp rfl
    obtain ⟨x, x', hx, hx', ha, hf, hf'⟩ := hq.held hc hj'
    exact ⟨x, x', hx, hrows (.inl ⟨c, hc, rfl⟩) hj' hx', ha.mono hle, hf, hf'⟩
  · obtain ⟨x, hx, ho, hc, hi⟩ := hq.task
    exact ⟨x, htask.trans hx, ho, hc.imp fun _ _ h => h.mono hle, hi.mono hle⟩

/-! ### All plans of a run -/

/-- The plans of the tasks of a run, in the order of the evaluation, mirror the run. -/
structure Track {bodies : Bodies β σ} {s : Nat} {constant : σ → Prop} (iso : Isolation bodies s constant) (ρ : Names)
    (w : World β σ) (ps : List (TaskPlan β σ)) : Prop where
  oneToOne : ρ.OneToOne
  bound : ∀ {k i j}, ρ k i j → j < w.extent k
  shared : constant w.shared
  apart : ps.Pairwise Apart
  mirrors : ∀ p ∈ ps, p.Mirrors iso ρ w

/-- The run changes at the task of a plan: other tasks keep their rows, and of the coroutines and
groups that exist only those change that the plan uses or waits for. -/
structure Turn {bodies : Bodies β σ} {s : Nat} {constant : σ → Prop} (iso : Isolation bodies s constant) (ρ ρ' : Names)
    (w w' : World β σ) (p : TaskPlan β σ) : Prop where
  le : ρ ≤ ρ'
  oneToOne : ρ'.OneToOne
  bound : ∀ {k i j}, ρ' k i j → j < w'.extent k
  shared : constant w.shared → constant w'.shared
  mode : ∀ t, w'.mode t = w.mode t
  handles : ∀ {j x}, w.handles.get? j = some x → (∀ i, ρ .coroutine i j → ¬ p.Uses i) →
    w'.handles.get? j = some x
  groups : ∀ {j x}, w.groups.get? j = some x → x.awaitedBy ≠ some p.task →
    (∀ i, ρ .group i j → ¬ p.Opens i) → w'.groups.get? j = some x
  tasks : ∀ {t}, t < w.tasks.size → t ≠ p.task → w'.tasks.get? t = w.tasks.get? t
  group : ∀ {x}, w.tasks.get? p.task = some x →
    ∃ x', w'.tasks.get? p.task = some x' ∧ x'.group = x.group
  fresh : ∀ {k i j}, ρ' k i j → ρ k i j ∨ ∃ v, v.Precedes p.finish ∧
    p.start.extent k ≤ i ∧ i < v.extent k ∧ World.Paired iso.alike ρ' v w' k i j

/-- A plan comes apart into plans, of its own task and of new ones. -/
structure Parts {bodies : Bodies β σ} {s : Nat} {constant : σ → Prop} (iso : Isolation bodies s constant) (ρ : Names)
    (w w' : World β σ) (p : TaskPlan β σ) (L : List (TaskPlan β σ)) : Prop where
  apart : L.Pairwise Apart
  within : ∀ l ∈ L, l.Within p
  task : ∀ l ∈ L, l.task = p.task ∨ w.tasks.size ≤ l.task
  chain : ∀ l ∈ L, ∀ c ∈ l.chain, p.Uses c.id
  mirrors : ∀ l ∈ L, l.Mirrors iso ρ w'

theorem Parts.nil : Parts iso ρ w w' p [] :=
  ⟨.nil, by simp, by simp, by simp, by simp⟩

theorem Parts.single (hw : l.Within p) (ht : l.task = p.task ∨ w.tasks.size ≤ l.task)
    (hc : ∀ c ∈ l.chain, p.Uses c.id) (hm : l.Mirrors iso ρ w') : Parts iso ρ w w' p [l] :=
  ⟨by simp, by simpa using hw, by simpa using ht, by simpa using hc, by simpa using hm⟩

theorem Parts.pair {m : TaskPlan β σ} (ha : m.Apart l) (hm : Parts iso ρ w w' p [m])
    (hl : Parts iso ρ w w' p [l]) : Parts iso ρ w w' p [m, l] where
  apart := List.pairwise_pair.mpr ha
  within := List.forall_mem_cons.mpr ⟨hm.within m (by simp), hl.within⟩
  task := List.forall_mem_cons.mpr ⟨hm.task m (by simp), hl.task⟩
  chain := List.forall_mem_cons.mpr ⟨hm.chain m (by simp), hl.chain⟩
  mirrors := List.forall_mem_cons.mpr ⟨hm.mirrors m (by simp), hl.mirrors⟩

/-- **The other plans go on as they were when one plan comes apart and the run changes at its
task.** -/
theorem Track.replace {A B L : List (TaskPlan β σ)} (h : Track iso ρ w (A ++ p :: B))
    (ht : Turn iso ρ ρ' w w' p) (hL : Parts iso ρ' w w' p L) : Track iso ρ' w' (A ++ (L ++ B)) := by
  have hp : p.Mirrors iso ρ w := h.mirrors p (by simp)
  obtain ⟨hA, hB, hAB⟩ := List.pairwise_append.mp h.apart
  obtain ⟨hpB, hB⟩ := List.pairwise_cons.mp hB
  have hAp : ∀ a ∈ A, a.Apart p := fun a ha => hAB a ha p (by simp)
  have hmA : ∀ a ∈ A, a.Mirrors iso ρ w := fun a ha => h.mirrors a (by simp [ha])
  have hmB : ∀ b ∈ B, b.Mirrors iso ρ w := fun b hb => h.mirrors b (by simp [hb])
  -- the rows that another plan relies on are not among those that changed
  have hother : ∀ q : TaskPlan β σ, q.Mirrors iso ρ w → q.task ≠ p.task →
      (∀ {i}, q.Uses i → ¬ p.Uses i) → (∀ {i}, q.Opens i → ¬ p.Opens i) →
      (∀ {k i} {v : World β σ}, v.Precedes p.finish → p.start.extent k ≤ i →
        v.Precedes q.start ∨ q.finish.extent k ≤ i) → q.Mirrors iso ρ' w' := by
    intro q hq hne huses hopens hord
    refine hq.frame ht.le ht.oneToOne ht.mode
      (fun hi hij hx => ht.handles hx fun i' hij' => (h.oneToOne hij hij').mpr rfl ▸ huses hi)
      (fun hi hij hx hf => ht.groups hx (by simp [hf.1]) fun i' hij' =>
        (h.oneToOne hij hij').mpr rfl ▸ hopens hi)
      (fun {k i j} hij => ?_) (ht.tasks hq.lt_size hne)
    · rcases ht.fresh hij with hij | ⟨v, hv, hi, hi', hpair⟩
      · exact .inl hij
      · exact .inr ((hord hv hi).imp_left fun hv => ⟨v, hv, hi', hpair⟩)
  refine ⟨ht.oneToOne, ht.bound, ht.shared h.shared, ?_, ?_⟩
  · refine List.pairwise_append.mpr ⟨hA, List.pairwise_append.mpr ⟨hL.apart, hB, ?_⟩, ?_⟩
    · intro l hl b hb
      refine ⟨(hL.within l hl).finish.trans (hpB b hb).order, ?_, fun c hc d hd e => ?_⟩
      · rcases hL.task l hl with e | e
        · exact e ▸ (hpB b hb).task
        · exact Ne.symm (Nat.ne_of_lt (Nat.lt_of_lt_of_le (hmB b hb).lt_size e))
      · exact (hpB b hb).not_uses hp (hmB b hb) (hL.chain l hl c hc) (.inl ⟨d, hd, e.symm⟩)
    · intro a ha q hq
      rcases List.mem_append.mp hq with hl | hb
      · refine ⟨(hAp a ha).order.trans (hL.within q hl).start, ?_, fun c hc d hd e => ?_⟩
        · rcases hL.task q hl with e | e
          · exact e ▸ (hAp a ha).task
          · exact Nat.ne_of_lt (Nat.lt_of_lt_of_le (hmA a ha).lt_size e)
        · exact (hAp a ha).not_uses (hmA a ha) hp (.inl ⟨c, hc, e⟩) (hL.chain q hl d hd)
      · exact hAB a ha q (by simp [hb])
  · intro q hq
    rcases List.mem_append.mp hq with ha | hq
    · have hm := hmA q ha
      have hord := (hAp q ha).order
      refine hother q hm (hAp q ha).task ((hAp q ha).not_uses hm hp)
        ((hAp q ha).not_opens hm.order) fun {k _ _} _ hi =>
          .inr (Nat.le_trans (hord.extent k) hi)
    · rcases List.mem_append.mp hq with hl | hb
      · exact hL.mirrors q hl
      · have hm := hmB q hb
        refine hother q hm (hpB q hb).task.symm (fun hi hi' => (hpB q hb).not_uses hp hm hi' hi)
          (fun hi hi' => (hpB q hb).not_opens hp.order hi' hi)
          fun {_ _ _} hv _ => .inl (hv.trans (hpB q hb).order)

end TaskPlan

end Coroutines
