import Coroutines.Proofs.Isolation.Plans

/-!
# A run that follows its plans

The plans of a run make up what is left of the evaluation without a queue (`Follows`): every task
that has no outcome has a plan, the tasks in the queue are those whose plans are ready, and a task
waits for the group whose members' outcomes its plan is going to combine (`Nest`).
-/

namespace Coroutines

namespace TaskPlan

variable {β σ : Type}

/-- The outcome that a task comes to: that of its plan, or the one that it has. -/
def Owes (ρ : Names) (w : World β σ) (ps : List (TaskPlan β σ)) (t : Nat) (o : Outcome) : Prop :=
  (∃ p ∈ ps, p.task = t ∧ p.outcome = o) ∨
    ∃ x o', w.tasks.get? t = some x ∧ x.outcome = some o' ∧ o.Alike Eq ρ o'

/-- The task of a plan waits for a group of the run, whose tasks come to outcomes of the plan.  Unless
the group is being opened or closed, all members have a task, and one of these has no outcome. -/
structure Gathering (ρ : Names) (w : World β σ) (opened : Option Nat) (ps : List (TaskPlan β σ))
    (task g : Nat) (re : Bool) (os : List Outcome) (rest : List CoroutineRef) (x : Group) :
    Prop where
  row : w.groups.get? g = some x
  awaitedBy : x.awaitedBy = some task
  returnExceptions : x.returnExceptions = re
  length : x.tasks.length ≤ x.handles.length
  left : List.Forall₂ (CoroutineRef.Alike ρ) rest (x.handles.drop x.tasks.length)
  owes : List.Forall₂ (Owes ρ w ps) x.tasks os
  members : ∀ t ∈ x.tasks, task < t ∧ ∃ y ref, w.tasks.get? t = some y ∧ y.group = some ref ∧
    ref.id = g
  unsettled : opened ≠ some g → rest = [] ∧ ∃ t ∈ x.tasks, ∃ y, w.tasks.get? t = some y ∧
    y.outcome = none

/-- If a task is a member of a group, a plan waits for the group. -/
def HasParent (w : World β σ) (ps : List (TaskPlan β σ)) (t : Nat) : Prop :=
  ∀ {x ref}, w.tasks.get? t = some x → x.group = some ref →
    ∃ q ∈ ps, ∃ re os rest y, q.stage = .waits ref.id re os rest ∧
      w.groups.get? ref.id = some y ∧ t ∈ y.tasks

/-- The plans of waiting tasks and of the members of their groups, around one group that is being
opened or closed. -/
structure Nest (ρ : Names) (w : World β σ) (opened : Option Nat) (ps : List (TaskPlan β σ)) :
    Prop where
  waits : ∀ {p}, p ∈ ps → ∀ {g re os rest}, p.stage = .waits g re os rest →
    ∃ x, Gathering ρ w opened ps p.task g re os rest x
  parent : ∀ {p}, p ∈ ps → HasParent w ps p.task

/-- A run without a limit is in progress, with a queue. -/
def Lined (w : World β σ) (s : Nat) (q : List Nat) : Prop :=
  ∃ x ctx, w.schedulers.get? s = some x ∧ x.maxSteps = none ∧ x.context = some ctx ∧ ctx.ready = q

/-- The task of a plan is to be resumed. -/
def Ready (p : TaskPlan β σ) : Prop := ∃ input, p.stage = .ready input

/-- The task of a plan waits for a group. -/
def Waits (p : TaskPlan β σ) : Prop := ∃ g re os rest, p.stage = .waits g re os rest

/-- The queue of a run holds the tasks whose plans are ready. -/
structure Queue (w : World β σ) (s : Nat) (q : List Nat) (ps : List (TaskPlan β σ)) : Prop where
  lined : Lined w s q
  nodup : q.Nodup
  mem_iff : ∀ {t}, t ∈ q ↔ ∃ p ∈ ps, p.task = t ∧ p.Ready

/-- A run whose root task is to come to an outcome follows plans. -/
structure Follows {bodies : Bodies β σ} {s : Nat} {constant : σ → Prop}
    (iso : Isolation bodies s constant) (ρ : Names)
    (w : World β σ) (root : Nat) (o : Outcome) (q : List Nat) (opened : Option Nat)
    (ps : List (TaskPlan β σ)) : Prop where
  track : Track iso ρ w ps
  nest : Nest ρ w opened ps
  queue : Queue w s q ps
  root : Owes ρ w ps root o

variable {bodies : Bodies β σ} {s : Nat} {constant : σ → Prop} {iso : Isolation bodies s constant} {ρ ρ' : Names}
  {w w' : World β σ} {p : TaskPlan β σ} {A B L : List (TaskPlan β σ)} {opened opened' : Option Nat}

/-! ### One plan comes apart -/

theorem Track.task_ne (h : Track iso ρ w (A ++ p :: B)) {q : TaskPlan β σ} (hq : q ∈ A ++ B) :
    q.task ≠ p.task := by
  obtain ⟨-, hB, hAB⟩ := List.pairwise_append.mp h.apart
  rcases List.mem_append.mp hq with hq | hq
  · exact (hAB q hq p (by simp)).task
  · exact ((List.pairwise_cons.mp hB).1 q hq).task.symm

/-- Tasks still come to their outcomes when one plan comes apart. -/
theorem Owes.replace {t : Nat} {o : Outcome} (h : Owes ρ w (A ++ p :: B) t o)
    (ht : Turn iso ρ ρ' w w' p) (hp : p.Mirrors iso ρ w)
    (howes : Owes ρ' w' (A ++ (L ++ B)) p.task p.outcome) : Owes ρ' w' (A ++ (L ++ B)) t o := by
  rcases h with ⟨q, hq, rfl, rfl⟩ | ⟨x, o', hx, ho, ha⟩
  · rcases List.mem_append.mp hq with hq | hq
    · exact .inl ⟨q, by simp [hq], rfl, rfl⟩
    · rcases List.mem_cons.mp hq with rfl | hq
      · exact howes
      · exact .inl ⟨q, by simp [hq], rfl, rfl⟩
  · have hne : t ≠ p.task := by
      rintro rfl
      obtain ⟨y, hy, hn, -⟩ := hp.task
      rw [hx] at hy
      cases hy
      rw [ho] at hn
      cases hn
    exact .inr ⟨x, o', (ht.tasks (Table.lt_size_of_get? hx) hne).trans hx, ho, ha.mono ht.le⟩

/-- A group that another task awaits stays as it is. -/
theorem Turn.awaited (ht : Turn iso ρ ρ' w w' p) (hp : p.Mirrors iso ρ w) {g t : Nat} {x : Group}
    (hx : w.groups.get? g = some x) (ha : x.awaitedBy = some t) (hne : t ≠ p.task) :
    w'.groups.get? g = some x := by
  refine ht.groups hx (by simpa [ha] using hne) fun i hi hopens => ?_
  obtain ⟨-, y, -, hy, -, hf⟩ := hp.opens hopens hi
  rw [hx] at hy
  cases hy
  rw [hf.1] at ha
  cases ha

/-- A waiting task of another plan goes on waiting, unless the task of the plan that comes apart was the
last to have no outcome. -/
theorem Gathering.replace {task g : Nat} {re : Bool} {os : List Outcome}
    {rest : List CoroutineRef} {x : Group}
    (h : Gathering ρ w opened (A ++ p :: B) task g re os rest x) (ht : Turn iso ρ ρ' w w' p)
    (hp : p.Mirrors iso ρ w) (hne : task ≠ p.task)
    (howes : Owes ρ' w' (A ++ (L ++ B)) p.task p.outcome)
    (hopened : opened = some g → opened' = some g)
    (hout : (∃ y, w'.tasks.get? p.task = some y ∧ y.outcome = none) ∨
      ∀ {y ref}, w.tasks.get? p.task = some y → y.group = some ref → opened' = some ref.id) :
    Gathering ρ' w' opened' (A ++ (L ++ B)) task g re os rest x where
  row := ht.awaited hp h.row h.awaitedBy hne
  awaitedBy := h.awaitedBy
  returnExceptions := h.returnExceptions
  length := h.length
  left := h.left.imp fun _ _ hc => hc.mono ht.le
  owes := h.owes.imp fun _ _ ho => ho.replace ht hp howes
  members t hm := by
    obtain ⟨hlt, y, ref, hy, hg, hr⟩ := h.members t hm
    refine ⟨hlt, ?_⟩
    by_cases e : t = p.task
    · subst e
      obtain ⟨y', hy', hg'⟩ := ht.group hy
      exact ⟨y', ref, hy', hg'.trans hg, hr⟩
    · exact ⟨y, ref, (ht.tasks (Table.lt_size_of_get? hy) e).trans hy, hg, hr⟩
  unsettled hn := by
    obtain ⟨hrest, t, hm, y, hy, ho⟩ := h.unsettled fun e => hn (hopened e)
    refine ⟨hrest, t, hm, ?_⟩
    by_cases e : t = p.task
    · subst e
      rcases hout with hout | hout
      · exact hout
      · obtain ⟨-, y', ref, hy', hg, rfl⟩ := h.members _ hm
        exact absurd (hout hy' hg) hn
    · exact ⟨y, (ht.tasks (Table.lt_size_of_get? hy) e).trans hy, ho⟩

/-- **Waiting tasks and members stay together when one plan comes apart.** -/
theorem Nest.replace (h : Nest ρ w opened (A ++ p :: B)) (htrack : Track iso ρ w (A ++ p :: B))
    (ht : Turn iso ρ ρ' w w' p) (howes : Owes ρ' w' (A ++ (L ++ B)) p.task p.outcome)
    (hopened : ∀ {g}, opened = some g → opened' = some g ∨
      ∀ {x}, w.groups.get? g = some x → x.awaitedBy = some p.task)
    (hout : (∃ y, w'.tasks.get? p.task = some y ∧ y.outcome = none) ∨
      ∀ {y ref}, w.tasks.get? p.task = some y → y.group = some ref → opened' = some ref.id)
    (hwaits : ∀ l ∈ L, ∀ {g re os rest}, l.stage = .waits g re os rest →
      ∃ x, Gathering ρ' w' opened' (A ++ (L ++ B)) l.task g re os rest x)
    (hnew : ∀ l ∈ L, l.task ≠ p.task → HasParent w' (A ++ (L ++ B)) l.task)
    (hchildren : ∀ {g re os rest y t}, p.stage = .waits g re os rest →
      w.groups.get? g = some y → t ∈ y.tasks → (∃ x, w.tasks.get? t = some x ∧ x.outcome = none) →
      ∃ l ∈ L, ∃ re' os' rest' y', l.stage = .waits g re' os' rest' ∧
        w'.groups.get? g = some y' ∧ t ∈ y'.tasks) :
    Nest ρ' w' opened' (A ++ (L ++ B)) := by
  have hp : p.Mirrors iso ρ w := htrack.mirrors p (by simp)
  have hne := fun q => htrack.task_ne (q := q)
  -- what was the parent of a task still is, or has passed its members on
  have hparent : ∀ {t x ref}, w.tasks.get? t = some x → x.outcome = none → x.group = some ref →
      HasParent w (A ++ p :: B) t → ∃ q ∈ A ++ (L ++ B), ∃ re os rest y,
        q.stage = .waits ref.id re os rest ∧ w'.groups.get? ref.id = some y ∧ t ∈ y.tasks := by
    intro t x ref hx ho hg hpar
    obtain ⟨q, hq, re, os, rest, y, hs, hy, hm⟩ := hpar hx hg
    obtain ⟨y', hgath⟩ := h.waits hq hs
    obtain rfl := Option.some.inj (hy.symm.trans hgath.row)
    have hcase : q = p ∨ q ∈ A ++ B := by
      simp only [List.mem_append, List.mem_cons] at hq ⊢
      tauto
    rcases hcase with rfl | hq
    · obtain ⟨l, hl, hrest⟩ := hchildren hs hy hm ⟨x, hx, ho⟩
      exact ⟨l, by simp [hl], hrest⟩
    · refine ⟨q, ?_, re, os, rest, y, hs, ht.awaited hp hy hgath.awaitedBy (hne q hq), hm⟩
      simp only [List.mem_append] at hq ⊢
      tauto
  have hold : ∀ {q}, q ∈ A ++ (L ++ B) → q ∈ L ∨ q ∈ A ++ B ∧ q ∈ A ++ p :: B := by
    intro q hq
    simp only [List.mem_append, List.mem_cons] at hq ⊢
    tauto
  refine ⟨fun {q} hq {g re os rest} hs => ?_, fun {q} hq {x ref} hx hg => ?_⟩
  · rcases hold hq with hq | ⟨hq, hq'⟩
    · exact hwaits q hq hs
    · obtain ⟨x, hgath⟩ := h.waits hq' hs
      refine ⟨x, hgath.replace ht hp (hne q hq) howes (fun e => ?_) hout⟩
      rcases hopened e with e | e
      · exact e
      · exact absurd (Option.some.inj (hgath.awaitedBy.symm.trans (e hgath.row))) (hne q hq)
  · rcases hold hq with hq | ⟨hq, hq'⟩
    · by_cases e : q.task = p.task
      · obtain ⟨y, hy, ho, -⟩ := hp.task
        obtain ⟨y', hy', hg'⟩ := ht.group hy
        rw [e] at hx ⊢
        obtain rfl := Option.some.inj (hx.symm.trans hy')
        exact hparent hy ho (hg'.symm.trans hg) (h.parent (by simp))
      · exact hnew q hq e hx hg
    · have hm := htrack.mirrors q hq'
      obtain ⟨y, hy, ho, -⟩ := hm.task
      rw [ht.tasks hm.lt_size (hne q hq), hy] at hx
      cases hx
      exact hparent hy ho hg (h.parent hq')

/-- The queue stays while no plan is or becomes ready. -/
theorem Queue.keep {q : List Nat} (h : Queue w s q (A ++ p :: B)) (hp : ¬ p.Ready)
    (hL : ∀ l ∈ L, ¬ l.Ready) (hlined : Lined w' s q) : Queue w' s q (A ++ (L ++ B)) where
  lined := hlined
  nodup := h.nodup
  mem_iff {t} := by
    rw [h.mem_iff]
    constructor <;> rintro ⟨r, hr, ht, hready⟩ <;> refine ⟨r, ?_, ht, hready⟩ <;>
      simp only [List.mem_append, List.mem_cons] at hr ⊢
    · rcases hr with hr | rfl | hr
      · exact .inl hr
      · exact absurd hready hp
      · exact .inr (.inr hr)
    · rcases hr with hr | hr | hr
      · exact .inl hr
      · exact absurd hready (hL r hr)
      · exact .inr (.inr hr)

/-- The task at the head of the queue leaves it as its plan is no longer ready. -/
theorem Queue.pop {q : List Nat} {l : TaskPlan β σ}
    (h : Queue w s (p.task :: q) (A ++ p :: B)) (hne : ∀ r ∈ A ++ B, r.task ≠ p.task)
    (hl : ¬ l.Ready) (hlined : Lined w' s q) : Queue w' s q (A ++ l :: B) where
  lined := hlined
  nodup := (List.nodup_cons.mp h.nodup).2
  mem_iff {t} := by
    have hnot := (List.nodup_cons.mp h.nodup).1
    constructor
    · intro ht
      obtain ⟨r, hr, rfl, hready⟩ := h.mem_iff.mp (List.mem_cons_of_mem _ ht)
      refine ⟨r, ?_, rfl, hready⟩
      simp only [List.mem_append, List.mem_cons] at hr ⊢
      rcases hr with hr | rfl | hr
      · exact .inl hr
      · exact absurd ht hnot
      · exact .inr (.inr hr)
    · rintro ⟨r, hr, rfl, hready⟩
      simp only [List.mem_append, List.mem_cons] at hr
      have hold : r ∈ A ++ B := by
        rcases hr with hr | rfl | hr
        · simp [hr]
        · exact absurd hready hl
        · simp [hr]
      have hmem := h.mem_iff.mpr ⟨r, by
        simp only [List.mem_append, List.mem_cons] at hold ⊢
        tauto, rfl, hready⟩
      exact (List.mem_cons.mp hmem).resolve_left (hne r hold)

/-- A plan that becomes ready brings its task to the end of the queue. -/
theorem Queue.push {q : List Nat} {l : TaskPlan β σ} (h : Queue w s q (A ++ p :: B))
    (hp : ¬ p.Ready) (hl : l ∈ L) (hready : l.Ready) (hL : ∀ l' ∈ L, l'.Ready → l' = l)
    (hnew : ∀ r ∈ A ++ B, r.task ≠ l.task) (hlined : Lined w' s (q ++ [l.task])) :
    Queue w' s (q ++ [l.task]) (A ++ (L ++ B)) where
  lined := hlined
  nodup := by
    refine List.nodup_append.mpr ⟨h.nodup, by simp, ?_⟩
    rintro t ht u hu rfl
    obtain ⟨r, hr, e, hr'⟩ := h.mem_iff.mp ht
    refine hnew r ?_ (e.trans (List.mem_singleton.mp hu))
    simp only [List.mem_append, List.mem_cons] at hr ⊢
    rcases hr with hr | rfl | hr
    · exact .inl hr
    · exact absurd hr' hp
    · exact .inr hr
  mem_iff {t} := by
    rw [List.mem_append, List.mem_singleton, h.mem_iff]
    constructor
    · rintro (⟨r, hr, e, hr'⟩ | rfl)
      · refine ⟨r, ?_, e, hr'⟩
        simp only [List.mem_append, List.mem_cons] at hr ⊢
        rcases hr with hr | rfl | hr
        · exact .inl hr
        · exact absurd hr' hp
        · exact .inr (.inr hr)
      · exact ⟨l, by simp [hl], rfl, hready⟩
    · rintro ⟨r, hr, e, hr'⟩
      simp only [List.mem_append] at hr
      rcases hr with hr | hr | hr
      · exact .inl ⟨r, by simp [hr], e, hr'⟩
      · exact .inr (hL r hr hr' ▸ e.symm)
      · exact .inl ⟨r, by simp [hr], e, hr'⟩

/-- A plan that becomes ready again brings its task back. -/
theorem Queue.requeue {q : List Nat} {l : TaskPlan β σ} (h : Queue w s q (A ++ p :: B))
    (hp : ¬ p.Ready) (htask : l.task = p.task) (hready : l.Ready)
    (hne : ∀ r ∈ A ++ B, r.task ≠ p.task) (hlined : Lined w' s (q ++ [p.task])) :
    Queue w' s (q ++ [p.task]) (A ++ l :: B) := by
  rw [← htask] at hne hlined ⊢
  exact h.push (L := [l]) hp List.mem_cons_self hready (fun _ hl _ => List.mem_singleton.mp hl) hne
    hlined

section

variable {root : Nat} {o : Outcome} {q q' : List Nat} {l : TaskPlan β σ}

/-- **A run goes on following its plans when a plan of the same task takes the place of one.**  If the
new plan waits, it waits for a group; if the old one waited, no member of its group is left. -/
theorem Follows.become (h : Follows iso ρ w root o q opened (A ++ p :: B)) (ht : Turn iso ρ ρ' w w' p)
    (hwithin : l.Within p) (htask : l.task = p.task) (houtcome : l.outcome = p.outcome)
    (hchain : ∀ c ∈ l.chain, p.Uses c.id) (hm : l.Mirrors iso ρ' w')
    (hopened : ∀ {g}, opened = some g → opened' = some g ∨
      ∀ {x}, w.groups.get? g = some x → x.awaitedBy = some p.task)
    (hwaits : ∀ {g re os rest}, l.stage = .waits g re os rest →
      ∃ x, Gathering ρ' w' opened' (A ++ l :: B) l.task g re os rest x)
    (hmembers : ∀ {g re os rest y t}, p.stage = .waits g re os rest → w.groups.get? g = some y →
      t ∈ y.tasks → ¬ ∃ x, w.tasks.get? t = some x ∧ x.outcome = none)
    (hq : Queue w' s q' (A ++ l :: B)) : Follows iso ρ' w' root o q' opened' (A ++ l :: B) := by
  have howes : Owes ρ' w' (A ++ ([l] ++ B)) p.task p.outcome :=
    .inl ⟨l, by simp, htask, houtcome⟩
  refine ⟨h.track.replace ht (.single hwithin (.inl htask) hchain hm), ?_, hq,
    h.root.replace ht (h.track.mirrors p (by simp)) howes⟩
  refine h.nest.replace (L := [l]) h.track ht howes hopened (.inl ?_)
    (List.forall_mem_singleton.mpr hwaits) (List.forall_mem_singleton.mpr fun hne => absurd htask hne)
    fun hs hy hmem hn => absurd hn (hmembers hs hy hmem)
  obtain ⟨x, hx, ho, -⟩ := hm.task
  exact ⟨x, htask ▸ hx, ho⟩

/-- A plan that moves on, and waits neither before nor after. -/
theorem Follows.move (h : Follows iso ρ w root o q none (A ++ p :: B)) (ht : Turn iso ρ ρ' w w' p)
    (hwithin : l.Within p) (htask : l.task = p.task) (houtcome : l.outcome = p.outcome)
    (hchain : ∀ c ∈ l.chain, p.Uses c.id) (hm : l.Mirrors iso ρ' w') (hp : ¬ p.Waits)
    (hl : ¬ l.Waits) (hq : Queue w' s q' (A ++ l :: B)) :
    Follows iso ρ' w' root o q' none (A ++ l :: B) :=
  h.become ht hwithin htask houtcome hchain hm (fun e => absurd e (by simp))
    (fun {g re os rest} hs => absurd ⟨g, re, os, rest, hs⟩ hl)
    (fun {g re os rest _ _} hs _ _ => absurd ⟨g, re, os, rest, hs⟩ hp) hq

end

end TaskPlan

end Coroutines
