import Coroutines.Proofs.Isolation.Advancing

/-!
# Groups along a plan

A group that a task awaits is opened by giving each member a task, which follows the stretch of the
evaluation that drives the member.
-/

namespace Coroutines

namespace World

variable {β σ : Type} {w w' : World β σ} {s : Nat}

@[simp] theorem extent_addMember (w : World β σ) (s : Nat) (g : GroupRef) (index : Nat)
    (c : CoroutineRef) (k : NameKind) : (w.addMember s g index c).2.extent k = w.extent k := by
  cases k with
  | group => exact Table.size_modify ..
  | coroutine | identity => rfl

@[simp] theorem mode_newTask (w : World β σ) (s s' : Nat) (c : CoroutineRef) (index : Nat)
    (group : Option GroupRef) : (w.newTask s c index group).2.mode s' = w.mode s' :=
  mode_modifyScheduler w s s' fun _ => ⟨rfl, rfl⟩

/-- A fresh coroutine became the next member of a group, with a task of its own that is ready; nothing else
changed but the queue. -/
structure Engages (g : GroupRef) (c : CoroutineRef) (w w' : World β σ) : Prop where
  task : ∃ id index, w'.tasks.get? w.tasks.size = some ⟨id, index, some g, .pending, [c], .start, none⟩
  others : ∀ {t}, t < w.tasks.size → w'.tasks.get? t = w.tasks.get? t
  handles : ∃ owner, w'.handles = (w.modifyHandle c (·.ownedBy owner)).handles
  group : ∀ {x}, w.groups.get? g.id = some x →
    w'.groups.get? g.id = some { x with tasks := x.tasks ++ [w.tasks.size] }
  groups : ∀ {i}, i ≠ g.id → w'.groups.get? i = w.groups.get? i
  extent : ∀ k, w'.extent k = w.extent k
  shared : w'.shared = w.shared
  mode : ∀ s, w'.mode s = w.mode s

theorem startMember_fresh {g : GroupRef} (index : Nat) {c : CoroutineRef} {y : Handle β}
    (hy : w.handles.get? c.id = some y) (hf : y.Fresh) :
    w.Engages g c (w.startMember s g index c) ∧ (w.startMember s g index c).schedulers =
      ((w.newTask s c index (some g)).2.enqueue s w.tasks.size).schedulers := by
  obtain ⟨id, hrow⟩ := w.get?_tasks_newTask s c index (some g)
  have he : w.addMember s g index c = (w.tasks.size, (w.addMember s g index c).2) := rfl
  have hclaim := claim_of_fresh (w := (w.addMember s g index c).2) (c := c) hy hf
    ((w.addMember s g index c).2.taskId w.tasks.size)
  rw [startMember, he]
  simp only [hclaim]
  have hgroup := get?_groups_modifyGroup (w.newTask s c index (some g)).2 g
    fun x => { x with tasks := x.tasks ++ [w.tasks.size] }
  refine ⟨⟨⟨id, index, (hrow _).trans (if_pos rfl)⟩, fun hlt => (hrow _).trans (if_neg (Nat.ne_of_lt hlt)), ⟨_, rfl⟩,
    fun hx => ?_, fun hne => (hgroup _).trans (if_neg (Ne.symm hne)), fun k => ?_, rfl, fun s' => ?_⟩, rfl⟩
  · exact (hgroup _).trans ((if_pos rfl).trans (congrArg (Option.map _) hx))
  · rw [extent_enqueue, extent_modifyHandle, extent_addMember]
  · exact (mode_enqueue (w.newTask s c index (some g)).2 s w.tasks.size s').trans (mode_newTask ..)

/-- Groups that another task awaits, or nobody, are left as they are. -/
theorem Engages.keep {g : GroupRef} {c : CoroutineRef} (h : w.Engages g c w') {x : Group}
    (hx : w.groups.get? g.id = some x) {i : Nat} {y : Group} (hy : w.groups.get? i = some y)
    (hne : y.awaitedBy ≠ x.awaitedBy) : w'.groups.get? i = some y := by
  refine (h.groups ?_).trans hy
  rintro rfl
  cases hx.symm.trans hy
  exact hne rfl

theorem Engages.fresh {g : GroupRef} {c : CoroutineRef} (h : w.Engages g c w') {x : Group} {t : Nat}
    (hx : w.groups.get? g.id = some x) (ha : x.awaitedBy = some t) {i : Nat} {y : Group}
    (hy : w.groups.get? i = some y) (hf : y.Fresh) : w'.groups.get? i = some y :=
  h.keep hx hy (by simp [hf.1, ha])

end World

namespace TaskPlan

variable {β σ : Type} {w w' : World β σ} {s t : Nat} {q : List Nat}

theorem Lined.newTask (h : Lined w s q) (c : CoroutineRef) (index : Nat) (group : Option GroupRef) :
    Lined (w.newTask s c index group).2 s q := by
  obtain ⟨x, ctx, hx, hm, hc, hq⟩ := h
  refine ⟨{ x with nextTask := x.nextTask + 1 }, ctx, ?_, hm, hc, hq⟩
  exact (Table.get?_modify_self ..).trans (by rw [hx]; rfl)

variable {bodies : Bodies β σ} {constant : σ → Prop} {iso : Isolation bodies s constant} {ρ ρ' : Names}
  {p : TaskPlan β σ} {A B ps : List (TaskPlan β σ)} {root : Nat} {o : Outcome}

/-! ### Opening -/

/-- The group that the evaluation marks as awaited, the plan is going to await. -/
theorem opens_of_modifyGroup {g : GroupRef} {k : Nat} {x : Group}
    (hx : p.start.groups.get? g.id = some x) (ha : x.awaitedBy = none)
    (hu : (p.start.modifyGroup g fun x => { x with awaitedBy := some k }).Precedes p.finish) :
    p.Opens g.id := by
  refine ⟨x, hx, ha, fun y hy hf => ?_⟩
  have hlt : g.id < (p.start.modifyGroup g fun x => { x with awaitedBy := some k }).extent .group := by
    rw [World.extent_modifyGroup]
    exact Table.lt_size_of_get? hx
  have hy' := hu.groups hy hf hlt
  rw [World.get?_groups_modifyGroup, if_pos rfl, hx, Option.map_some] at hy'
  cases hy'
  cases hf

/-- A task awaits a group that the evaluation gathers: in the run the group is opened, with no task
for any member yet. -/
theorem Follows.openGroup (h : Follows iso ρ w root o q none (A ++ p :: B))
    (hs : p.stage = .held) (hne : p.chain ≠ []) {g g' : GroupRef} {x : Group} {os : List Outcome}
    {values : Except Record (List Value)} {u : World β σ} {identity m n : Nat} (hg : g.Alike ρ g')
    (hx : p.start.groups.get? g.id = some x) (ha : x.awaitedBy = none)
    (hgath : World.Gathers iso
      (p.start.modifyGroup g fun x => { x with awaitedBy := some 0 }) x.handles os u m)
    (hcomb : combine x.returnExceptions os u.nextIdentity = (values, identity))
    (hplan : World.Continues iso { u with nextIdentity := identity } p.chain
      (Outcome.input (values.map .list)) p.outcome p.finish n) :
    ∃ x' w₁, w.suspend s p.task (.group g') =
        (w₁.startMembers s g' 0 x'.handles).closeGroup s g' ∧
      w₁.groups.get? g'.id = some x' ∧ x'.tasks = [] ∧
      Follows iso ρ w₁ root o q (some g'.id) (A ++ { p with
        start := p.start.modifyGroup g fun x => { x with awaitedBy := some 0 }, turns := m + n,
        stage := .waits g'.id x.returnExceptions [] x.handles } :: B) := by
  have hm : p.Mirrors iso ρ w := h.track.mirrors p (by simp)
  have hpre := World.Precedes.modifyGroup p.start g 0
  have hu := (hgath.precedes).1.trans ((World.Precedes.nextIdentity
    ((World.le_combine _ _ _).trans_eq (congrArg Prod.snd hcomb))).trans (hplan.precedes).1)
  have hopens := opens_of_modifyGroup hx ha hu
  obtain ⟨y, x', hy, hx', hax, hfresh⟩ := hm.opens hopens hg.2
  cases hx.symm.trans hy
  obtain ⟨z, hz, hout, hchain, hin⟩ := hm.task
  -- the world with the group open, and what it keeps of the one before
  set w₁ := (w.modifyTask p.task fun x => { x with state := .suspended }).opening s p.task g' with hw₁
  have hgroup : ∀ i, w₁.groups.get? i = if i = g'.id then
      some { x' with awaitedBy := some p.task } else w.groups.get? i :=
    World.get?_opening_of_get? hx'
  have hself : w₁.groups.get? g'.id = some { x' with awaitedBy := some p.task } :=
    (hgroup _).trans (if_pos rfl)
  have hrow : ∀ t, w₁.tasks.get? t =
      if t = p.task then some { z with state := .suspended } else w.tasks.get? t :=
    World.get?_modifyTask_of_get? hz _
  have hmode : ∀ t, w₁.mode t = w.mode t := fun _ => rfl
  have hhandles : w₁.handles = w.handles := rfl
  have hother : ∀ {j y}, j ≠ g'.id → w.groups.get? j = some y → w₁.groups.get? j = some y :=
    fun hj hy => (hgroup _).trans ((if_neg hj).trans hy)
  have hfree := World.groupTaken_eq_false_iff.mpr ⟨x', hx', hfresh.1⟩
  refine ⟨{ x' with awaitedBy := some p.task }, w₁,
    (World.suspend_of_free hfree s p.task).trans
      (World.startGroup_of_get? (w := w.modifyTask p.task _) (x := x') hx'), hself, hfresh.2, ?_⟩
  have hturn : Turn iso ρ ρ w w₁ p := by
    refine .own h.track hz hrow rfl (fun k => ?_) rfl hmode
      (fun hy _ => hhandles ▸ hy) fun {j y} hy _ hj => hother ?_ hy
    · exact Nat.le_of_eq (World.extent_modifyGroup (w.modifyTask ..) ..).symm
    · rintro rfl
      exact hj g.id hg.2 hopens
  set l : TaskPlan β σ := { p with
    start := p.start.modifyGroup g fun x => { x with awaitedBy := some 0 }, turns := m + n,
    stage := .waits g'.id x.returnExceptions [] x.handles } with hl
  have hlm : l.Mirrors iso ρ w₁ := by
    refine hm.change ⟨hpre, hu, .refl _⟩ ⟨hne, os, u, values, identity, m, n, hgath, hcomb, hplan, rfl⟩
      (fun _ _ _ h => h) hmode (fun _ _ hy _ => hhandles ▸ hy)
      (fun {i j y} hi hij hy _ => hother ?_ hy) .inl hm.nodup (fun {c} hc {j} hj => ?_) ?_
    · rintro rfl
      obtain rfl := (h.track.oneToOne hij hg.2).mpr rfl
      obtain ⟨y, hy, hf, -⟩ := hi
      rw [World.get?_groups_modifyGroup, if_pos rfl, hx, Option.map_some] at hy
      cases hy
      cases hf
    · rw [hhandles]
      exact hm.held hc hj
    · exact ⟨_, (hrow _).trans (if_pos rfl), hout, hchain, trivial⟩
  refine h.become hturn ⟨hpre, hu, .refl _⟩ rfl rfl (fun c hc => .inl ⟨c, hc, rfl⟩) hlm
    (fun e => absurd e (by simp)) (fun hs' => ?_) (fun hs' => absurd (hs.symm.trans hs') nofun)
    (h.queue.keep (L := [l]) (by simp [Ready, hs]) (by simp [Ready, hl])
      (h.queue.lined.of_schedulers rfl))
  -- no member has a task yet
  cases hs'
  refine ⟨_, hself, rfl, hax.returnExceptions.symm, by simp [hfresh.2], ?_, ?_, ?_, by simp⟩
  · simpa [hfresh.2] using hax.handles
  · simp [hfresh.2]
  · simp [hfresh.2]

section

variable {c c' : CoroutineRef} {k n : Nat} {u u' : World β σ} {oc : Outcome} {g : GroupRef} {x : Group}

/-- The plan of a new member starts where the evaluation claims the member. -/
theorem Mirrors.member (hm : p.Mirrors iso ρ w) (hone : ρ.OneToOne) (hc : c.Alike ρ c')
    (hclaim : p.start.claim c k = (none, u))
    (hdrive : World.Continues iso u [c] .start oc u' n) (hu : u'.Precedes p.finish)
    (he : w.Engages g c' w') (hx : w.groups.get? g.id = some x) (ha : x.awaitedBy = some t) :
    Mirrors iso ρ w' ⟨w.tasks.size, u, u', [c], oc, n, .ready .start⟩ := by
  have hpre := World.Precedes.claim hclaim
  have hdone := (hdrive.precedes).1
  obtain ⟨owner, hhandles⟩ := he.handles
  obtain ⟨y, y', hy, hy', hyy, -⟩ := hm.claims (claims_of_claim hclaim (hdone.trans hu)) hc.2
  obtain ⟨y₀, hy₀, -, -, rfl⟩ := World.claim_eq_none hclaim
  cases hy.symm.trans hy₀
  have hown : (p.start.modifyHandle c (·.ownedBy k)).handles.get? c.id = some (y.ownedBy k) :=
    World.get?_modifyHandle_self hy _
  refine hm.change ⟨hpre, hdone, hu⟩ ⟨nofun, hdrive⟩ (fun _ _ _ h => h) he.mode
    (fun {i j z} hi hij hz _ => ?_) (fun _ _ hz hf => he.fresh hx ha hz hf) .inl (by simp)
    (fun {d} hd {j} hj => ?_) ?_
  · rw [hhandles]
    refine World.get?_handles_modifyHandle_of_ne _ _ _ (fun e => ?_) hz
    obtain rfl := (hone hij hc.2).mpr e
    obtain ⟨z', hz', hf, -⟩ := hi
    cases hown.symm.trans hz'
    cases hf.2
  · obtain rfl := List.mem_singleton.mp hd
    obtain rfl := (hone hj hc.2).mp rfl
    refine ⟨_, y'.ownedBy owner, hown, ?_, ⟨hyy.name, hyy.body, hyy.frame, hyy.status⟩, nofun, nofun⟩
    rw [hhandles, World.get?_modifyHandle_self hy']
  · obtain ⟨id, index, hrow⟩ := he.task
    exact ⟨_, hrow, rfl, .cons hc .nil, .start⟩

/-- The plan that gathers goes on where the evaluation has driven the member to its end. -/
theorem Mirrors.others {l : TaskPlan β σ} (hm : p.Mirrors iso ρ w) (hone : ρ.OneToOne)
    (hc : c.Alike ρ c') (hclaim : p.start.claim c k = (none, u))
    (hdrive : World.Continues iso u [c] .start oc l.start n) (hfinish : l.finish = p.finish)
    (htask : l.task = p.task) (hchain : l.chain = p.chain) (hplan : l.Planned iso)
    (hstage : ∀ input, l.stage.Gives ρ input) (hl : l.start.Precedes p.finish)
    (he : w.Engages g c' w') (hx : w.groups.get? g.id = some x) (ha : x.awaitedBy = some t) :
    l.Mirrors iso ρ w' := by
  have hpre := World.Precedes.claim hclaim
  obtain ⟨hdone, hspares⟩ := hdrive.precedes
  have hclaims := claims_of_claim hclaim (hdone.trans hl)
  have hsp := World.Spares.claim hclaim
  have hne : ∀ {d}, d ∈ p.chain → d.id ≠ c.id := fun hd e => hm.not_claims hm hd (e ▸ hclaims)
  have hother : ∀ {i j z}, ρ .coroutine i j → i ≠ c.id → w.handles.get? j = some z →
      w'.handles.get? j = some z := by
    intro i j z hij hi hz
    obtain ⟨owner, hhandles⟩ := he.handles
    rw [hhandles]
    exact World.get?_handles_modifyHandle_of_ne _ _ _ (fun e => hi ((hone hij hc.2).mpr e)) hz
  refine hm.change ⟨hpre.trans hdone, hfinish ▸ hl, hfinish ▸ .refl _⟩ hplan (fun _ _ _ h => h)
    he.mode (fun {i j z} hi hij hz _ => hother hij ?_ hz) (fun _ _ hz hf => he.fresh hx ha hz hf) .inl
    (hchain ▸ hm.nodup) (fun {d} hd {j} hj => ?_) ?_
  · rintro rfl
    obtain ⟨y, hy, hf, -⟩ := hi
    obtain ⟨y₀, hy₀, -, -, rfl⟩ := World.claim_eq_none hclaim
    have hlt : c.id < (p.start.modifyHandle c (·.ownedBy k)).handles.size := by
      simpa [World.modifyHandle] using Table.lt_size_of_get? hy₀
    have hy' := hdone.handles hy hf hlt
    rw [World.get?_modifyHandle_self hy₀] at hy'
    cases hy'
    cases hf.2
  · rw [hchain] at hd
    obtain ⟨y, y', hy, hy', hyy, hf, hf'⟩ := hm.held hd hj
    refine ⟨y, y', hspares (hsp hy hf (by simp)) hf (fun d' hd' => ?_), hother hj (hne hd) hy', hyy, hf,
      hf'⟩
    rw [List.mem_singleton.mp hd']
    exact (hne hd).symm
  · obtain ⟨z, hz, ho, hzc, -⟩ := hm.task
    exact ⟨z, htask ▸ (he.others hm.lt_size).trans hz, ho, hchain ▸ hzc, hstage _⟩

variable {re : Bool} {os : List Outcome} {rest : List CoroutineRef} {opened : Option Nat}

/-- As a member gets its task, the run changes at the task that gathers. -/
theorem Turn.engage (htrack : Track iso ρ w (A ++ p :: B))
    (hgath : Gathering ρ w opened (A ++ p :: B) p.task g.id re os rest x) (hc : c.Alike ρ c')
    (hclaims : p.Claims c.id) (he : w.Engages g c' w') : Turn iso ρ ρ w w' p where
  le _ _ _ e := e
  oneToOne := htrack.oneToOne
  bound e := he.extent _ ▸ htrack.bound e
  shared hconstant := he.shared ▸ hconstant
  mode := he.mode
  handles {j y} hy hj := by
    obtain ⟨owner, hhandles⟩ := he.handles
    rw [hhandles]
    refine World.get?_handles_modifyHandle_of_ne _ _ _ ?_ hy
    rintro rfl
    exact hj c.id hc.2 (.inr hclaims)
  groups hy hne _ := he.keep hgath.row hy (hgath.awaitedBy ▸ hne)
  tasks hlt _ := he.others hlt
  group {y} hy := ⟨y, (he.others (Table.lt_size_of_get? hy)).trans hy, rfl⟩
  fresh := .inl

/-- The task of the new member is one more that the group waits for, and has one member less to start. -/
theorem Gathering.engage {o₁ : Outcome} {cs : List CoroutineRef} {ps : List (TaskPlan β σ)}
    (hgath : Gathering ρ w opened (A ++ p :: B) p.task g.id re os (c :: rest) x)
    (hrest : List.Forall₂ (CoroutineRef.Alike ρ) rest cs) (hdrop : x.handles.drop x.tasks.length = c' :: cs)
    (htask : p.task < w.tasks.size) (he : w.Engages g c' w')
    (howes : ∀ {t o}, Owes ρ w (A ++ p :: B) t o → Owes ρ w' ps t o) (hnew : Owes ρ w' ps w.tasks.size o₁) :
    Gathering ρ w' (some g.id) ps p.task g.id re (os ++ [o₁]) rest
      { x with tasks := x.tasks ++ [w.tasks.size] } where
  row := he.group hgath.row
  awaitedBy := hgath.awaitedBy
  returnExceptions := hgath.returnExceptions
  length := by
    have hlength := congrArg List.length hdrop
    simp only [List.length_drop, List.length_cons] at hlength
    simp only [List.length_append, List.length_singleton]
    omega
  left := by
    have hdrop' : x.handles.drop (x.tasks.length + 1) = cs := by
      rw [← List.drop_drop, hdrop, List.drop_one, List.tail_cons]
    simpa [hdrop'] using hrest
  owes := List.rel_append (hgath.owes.imp fun _ _ ho => howes ho) (.cons hnew .nil)
  members t ht := by
    rcases List.mem_append.mp ht with ht | ht
    · obtain ⟨hlt, y, ref, hy, hyg, hr⟩ := hgath.members t ht
      exact ⟨hlt, y, ref, (he.others (Table.lt_size_of_get? hy)).trans hy, hyg, hr⟩
    · obtain ⟨id, index, hrow⟩ := he.task
      rw [List.mem_singleton.mp ht]
      exact ⟨htask, _, g, hrow, rfl, rfl⟩
  unsettled hne := absurd rfl hne

/-- The task of the new member has a parent, and so have the tasks before it. -/
theorem Nest.engage {m l : TaskPlan β σ} (h : Nest ρ w (some g.id) (A ++ p :: B))
    (htrack : Track iso ρ w (A ++ p :: B)) (hturn : Turn iso ρ ρ w w' p)
    (howes : Owes ρ w' (A ++ ([m, l] ++ B)) p.task p.outcome)
    (hs : p.stage = .waits g.id re os (c :: rest)) (hx : w.groups.get? g.id = some x)
    (he : w.Engages g c' w') (hm : m.task = w.tasks.size) (hready : m.Ready) (hl : l.task = p.task)
    {os' : List Outcome} (hls : l.stage = .waits g.id re os' rest)
    (hgath : Gathering ρ w' (some g.id) (A ++ ([m, l] ++ B)) p.task g.id re os' rest
      { x with tasks := x.tasks ++ [w.tasks.size] }) :
    Nest ρ w' (some g.id) (A ++ ([m, l] ++ B)) := by
  obtain ⟨y, hy, hout, -⟩ := (htrack.mirrors p (by simp)).task
  refine h.replace htrack hturn howes .inl
    (.inl ⟨y, (he.others (Table.lt_size_of_get? hy)).trans hy, hout⟩) ?_ ?_ ?_
  · refine List.forall_mem_cons.mpr ⟨fun hs₁ => ?_, List.forall_mem_singleton.mpr fun hs₁ => ?_⟩
    · obtain ⟨input, hinput⟩ := hready
      cases hinput.symm.trans hs₁
    · cases hls.symm.trans hs₁
      exact ⟨_, hl ▸ hgath⟩
  · refine List.forall_mem_cons.mpr ⟨fun _ z ref hz hzg => ?_, List.forall_mem_singleton.mpr
      fun hne => absurd hl hne⟩
    obtain ⟨id, index, hrow⟩ := he.task
    rw [hm, hrow] at hz
    cases hz
    cases hzg
    exact ⟨l, by simp, re, _, _, _, hls, hgath.row, by simp [hm]⟩
  · intro g₁ re₁ os₁ rest₁ z t hs₁ hz ht _
    cases hs.symm.trans hs₁
    cases hx.symm.trans hz
    exact ⟨l, by simp, re, _, _, _, hls, hgath.row, by simp [ht]⟩

end

/-- The first member that the plan still gathers gets a task, which is to follow the stretch of the
evaluation that drives the member. -/
theorem Follows.startMember {g : GroupRef} {re : Bool} {os : List Outcome}
    {c : CoroutineRef} {rest : List CoroutineRef} (index : Nat)
    (h : Follows iso ρ w root o q (some g.id) (A ++ p :: B))
    (hs : p.stage = .waits g.id re os (c :: rest)) :
    ∃ c' cs x m l, w.groups.get? g.id = some x ∧ x.handles.drop x.tasks.length = c' :: cs ∧
      (∃ y, (w.startMember s g index c').groups.get? g.id = some y ∧
        y.handles.drop y.tasks.length = cs) ∧
      (∃ os', l.stage = .waits g.id re os' rest) ∧ m.Ready ∧ m.turns + l.turns = p.turns ∧
      Follows iso ρ (w.startMember s g index c') root o (q ++ [w.tasks.size]) (some g.id)
        (A ++ m :: l :: B) := by
  have hm : p.Mirrors iso ρ w := h.track.mirrors p (by simp)
  obtain ⟨x, hgath⟩ := h.nest.waits (by simp) hs
  obtain ⟨c', cs, hc, hrest, hdrop⟩ := List.forall₂_cons_left_iff.mp hgath.left
  have hplanned := hm.planned
  simp only [Planned, hs] at hplanned
  obtain ⟨hchain, more, v, values, identity, n₀, n, hgathers, hcomb, hplan, hturns⟩ := hplanned
  cases hgathers with
  | @cons u u' u'' _ _ _ o₁ os' n₁ n₂ hclaim hdrive hmore =>
      -- the evaluation claims the member, drives it to its end and goes on with the others
      have hv := (World.Precedes.nextIdentity
        ((World.le_combine _ _ _).trans_eq (congrArg Prod.snd hcomb))).trans (hplan.precedes).1
      have hpre := World.Precedes.claim hclaim
      have hpre' := hdrive.precedes
      have hfin' := (hmore.precedes).1.trans hv
      have hclaims := claims_of_claim hclaim (hpre'.1.trans hfin')
      obtain ⟨-, y', -, hy', -, hf'⟩ := hm.claims hclaims hc.2
      obtain ⟨he, hsched⟩ := World.startMember_fresh (s := s) (g := g) index hy' hf'
      obtain ⟨w', hw'⟩ : ∃ w', w.startMember s g index c' = w' := ⟨_, rfl⟩
      rw [hw'] at he hsched
      -- the plan comes apart into that of the member and what is left of it
      set m : TaskPlan β σ := ⟨w.tasks.size, u', u'', [c], o₁, n₁, .ready .start⟩ with hmdef
      set l : TaskPlan β σ := { p with
        start := u'', turns := n₂ + n, stage := .waits g.id re (os ++ [o₁]) rest } with hldef
      have hmm : m.Mirrors iso ρ w' :=
        hm.member h.track.oneToOne hc hclaim hdrive hfin' he hgath.row hgath.awaitedBy
      have hlm : l.Mirrors iso ρ w' := hm.others h.track.oneToOne hc hclaim hdrive rfl rfl rfl
        ⟨hchain, os', v, values, identity, n₂, n, hmore, by rwa [List.append_assoc], hplan, rfl⟩
        (fun _ => trivial) hfin' he hgath.row hgath.awaitedBy
      have hturn : Turn iso ρ ρ w w' p := .engage h.track hgath hc hclaims he
      have howes : Owes ρ w' (A ++ ([m, l] ++ B)) p.task p.outcome := .inl ⟨l, by simp, rfl, rfl⟩
      have hgath' := hgath.engage hrest hdrop hm.lt_size he (fun ho => ho.replace hturn hm howes)
        (.inl ⟨m, by simp, rfl, rfl⟩)
      have hparts : Parts iso ρ w w' p [m, l] := by
        refine .pair ⟨.refl _, Nat.ne_of_gt hm.lt_size, fun d hd e hmem hde => ?_⟩
          (.single ⟨hpre, hpre'.1, hfin'⟩ (.inr (Nat.le_refl _)) (fun d hd => ?_) hmm)
          (.single ⟨hpre.trans hpre'.1, hfin', .refl _⟩ (.inl rfl) (fun d hd => .inl ⟨d, hd, rfl⟩) hlm)
        · rw [List.mem_singleton.mp hd] at hde
          exact hm.not_claims hm hmem (hde ▸ hclaims)
        · exact .inr (List.mem_singleton.mp hd ▸ hclaims)
      refine ⟨c', cs, x, m, l, hgath.row, hdrop, ?_⟩
      rw [hw']
      refine ⟨⟨_, hgath'.row, ?_⟩, ⟨_, rfl⟩, ⟨_, rfl⟩, by simp only [hmdef, hldef]; omega,
        h.track.replace hturn hparts, ?nest, ?queue, h.root.replace hturn hm howes⟩
      · have hdrop' := congrArg List.tail hdrop
        simpa using hdrop'
      case nest =>
        exact h.nest.engage h.track hturn howes hs hgath.row he rfl ⟨_, rfl⟩ rfl rfl hgath'
      case queue =>
        refine h.queue.push (L := [m, l]) (by simp [Ready, hs]) List.mem_cons_self ⟨_, rfl⟩ ?_
          (fun r hr => ?_) (((h.queue.lined.newTask c' index (some g)).enqueue).of_schedulers hsched)
        · refine List.forall_mem_cons.mpr ⟨fun _ => rfl, List.forall_mem_singleton.mpr ?_⟩
          rintro ⟨input, hi⟩
          cases hi
        · have hr' : r ∈ A ++ p :: B := by
            simp only [List.mem_append, List.mem_cons] at hr ⊢
            tauto
          exact Nat.ne_of_lt (h.track.mirrors r hr').lt_size

/-- The resumes that the plans of a run are still to make. -/
def total : List (TaskPlan β σ) → Nat
  | [] => 0
  | p :: ps => p.turns + total ps

@[simp] theorem total_nil : total ([] : List (TaskPlan β σ)) = 0 := rfl

@[simp] theorem total_cons (p : TaskPlan β σ) (ps : List (TaskPlan β σ)) :
    total (p :: ps) = p.turns + total ps := rfl

@[simp] theorem total_append (A B : List (TaskPlan β σ)) : total (A ++ B) = total A + total B := by
  induction A with
  | nil => exact (Nat.zero_add _).symm
  | cons p ps ih => rw [List.cons_append, total_cons, total_cons, ih, Nat.add_assoc]

/-- **Every member of a group gets a task with a plan of its own.** -/
theorem Follows.startMembers {g : GroupRef} {re : Bool} {os : List Outcome}
    {rest cs : List CoroutineRef} (index : Nat) {x : Group}
    (h : Follows iso ρ w root o q (some g.id) (A ++ p :: B))
    (hs : p.stage = .waits g.id re os rest) (hx : w.groups.get? g.id = some x)
    (hdrop : x.handles.drop x.tasks.length = cs) :
    ∃ q' C l os', Follows iso ρ (w.startMembers s g index cs) root o q' (some g.id)
        (A ++ (C ++ l :: B)) ∧ l.stage = .waits g.id re os' [] ∧ (∀ m ∈ C, m.Ready) ∧
      total C + l.turns = p.turns := by
  induction rest generalizing w q A p os cs index x with
  | nil =>
      obtain ⟨y, hgath⟩ := h.nest.waits (by simp) hs
      cases hx.symm.trans hgath.row
      have hcs : cs = [] := hdrop ▸ List.forall₂_nil_left_iff.mp hgath.left
      subst hcs
      exact ⟨q, [], p, os, h, hs, by simp, by simp⟩
  | cons c rest ih =>
      obtain ⟨c', cs', y, m, l, hy, hdrop', ⟨z, hz, hzdrop⟩, ⟨os', hl⟩, hm, hturns, hfollows⟩ :=
        h.startMember index hs
      cases hx.symm.trans hy
      obtain rfl := hdrop.symm.trans hdrop'
      have hfollows' : Follows iso ρ (w.startMember s g index c') root o (q ++ [w.tasks.size])
          (some g.id) ((A ++ [m]) ++ l :: B) := by simpa using hfollows
      obtain ⟨q', C, l', os'', hf, hl', hC, hsum⟩ := ih (index + 1) hfollows' hl hz hzdrop
      refine ⟨q', m :: C, l', os'', by simpa [World.startMembers] using hf, hl',
        List.forall_mem_cons.mpr ⟨hm, hC⟩, ?_⟩
      rw [total_cons]
      omega

end TaskPlan

end Coroutines
