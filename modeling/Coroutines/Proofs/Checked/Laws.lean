import Coroutines.Proofs.Joining.Slots
import Coroutines.Proofs.Ownership.Endings

/-!
# Laws of the data in a world

A law says which values, records, bodies and shared states are allowed.  An action upholds a law if
it makes allowed things of allowed things, whatever its requests come back with.  When the bodies of
all coroutines do, everything that coroutines leave behind, deliver to one another and end with is
allowed, in every run and at every depth of runs inside runs.
-/

namespace Coroutines

/-- What is allowed. -/
structure Law (β σ : Type) where
  value : Value → Prop
  record : Record → Prop
  /-- A body together with the local bindings that it goes on with. -/
  body : β → Bindings Value → Prop
  shared : σ → Prop

/-- The failures that the schedulers themselves come up with. -/
def Failure.isUsage : Failure → Bool
  | .nestedRun | .noRunningLoop | .coroutineReuse | .coroutineBusy | .groupAwaited | .budget _ => true
  | _ => false

/-- A coroutine refuses an input with a failure of the schedulers, or with an error of the host. -/
theorem Handle.usage_of_refusal? {β : Type} {x : Handle β} {input : Input} {r : Record}
    (h : x.refusal? input = some (.script r)) : ∃ f : Failure, f.isUsage = true ∧ r = .ofFailure f := by
  unfold refusal? at h
  split at h
  · cases h
    exact ⟨_, rfl, rfl⟩
  · split at h
    · cases h
      exact ⟨_, rfl, rfl⟩
    · split at h <;> cases h

namespace Law

variable {β σ α γ : Type} (L : Law β σ)

def outcome : Outcome → Prop
  | .ok v => L.value v
  | .error r => L.record r

def input : Input → Prop
  | .start => True
  | .value v => L.value v
  | .throw r => L.record r

def step : Step → Prop
  | .await _ => True
  | .ret v => L.value v
  | .raise r => L.record r

/-- A law allows what the schedulers make: their own failures, lists of allowed values, and values
that hold a failure. -/
structure Closed : Prop where
  usage : ∀ {f : Failure}, f.isUsage = true → L.record (.ofFailure f)
  list : ∀ {vs}, (∀ v ∈ vs, L.value v) → L.value (.list vs)
  exception : ∀ {i r}, L.record r → L.value (.exception i r)

variable {L}

theorem input_of_outcome {o : Outcome} (h : L.outcome o) : L.input o.input := by
  cases o <;> exact h

end Law

namespace Action

variable {β σ α γ : Type} {L : Law β σ}

/-- The action makes allowed things of allowed things, ends with values of which `post` holds and raises
records of which `err` holds. -/
def Upholds (L : Law β σ) (post : α → Prop) (err : Record → Prop) : Action β σ α → Prop
  | .done (.ok a) => post a
  | .done (.error (.script r)) => err r
  | .done (.error _) => True
  | .read next => ∀ s, L.shared s → (next s).Upholds L post err
  | .modify f next => (∀ s, L.shared s → L.shared (f s)) ∧ next.Upholds L post err
  | .identity next => ∀ n, (next n).Upholds L post err
  | .spawn _ body locals next => L.body body locals ∧ ∀ c, (next c).Upholds L post err
  | .joinAll _ _ _ next => (∀ g, (next (.ok g)).Upholds L post err) ∧
    ∀ r, L.record r → (next (.error r)).Upholds L post err
  | .run _ _ next => (∀ v, L.value v → (next (.ok v)).Upholds L post err) ∧
    ∀ r, L.record r → (next (.error r)).Upholds L post err
  | .resume _ _ _ => False
  | .claim _ _ _ => False
  | .release _ _ => False

namespace Upholds

variable {post : α → Prop} {post' : γ → Prop} {err err' : Record → Prop}

theorem bind {x : Action β σ α} {k : α → Action β σ γ} (h : x.Upholds L post err)
    (hk : ∀ a, post a → (k a).Upholds L post' err) : (x.bind k).Upholds L post' err := by
  induction x with
  | done result =>
      rcases result with (r | _ | _ | _ | _) | a
      · exact h
      · trivial
      · trivial
      · trivial
      · trivial
      · exact hk a h
  | read next ih => exact fun s hs => ih s (h s hs)
  | modify f next ih => exact ⟨h.1, ih h.2⟩
  | identity next ih => exact fun n => ih n (h n)
  | spawn name body locals next ih => exact ⟨h.1, fun c => ih c (h.2 c)⟩
  | joinAll s members re next ih => exact ⟨fun g => ih _ (h.1 g), fun r hr => ih _ (h.2 r hr)⟩
  | run s c next ih => exact ⟨fun v hv => ih _ (h.1 v hv), fun r hr => ih _ (h.2 r hr)⟩
  | resume c input next ih => exact h.elim
  | claim c task next ih => exact h.elim
  | release c next ih => exact h.elim

theorem catchScript {x : Action β σ α} {handler : Record → Action β σ α}
    (h : x.Upholds L post err) (hh : ∀ r, err r → (handler r).Upholds L post err') :
    (x.catchScript handler).Upholds L post err' := by
  induction x with
  | done result =>
      rcases result with (r | _ | _ | _ | _) | a
      · exact hh r h
      · trivial
      · trivial
      · trivial
      · trivial
      · exact h
  | read next ih => exact fun s hs => ih s (h s hs)
  | modify f next ih => exact ⟨h.1, ih h.2⟩
  | identity next ih => exact fun n => ih n (h n)
  | spawn name body locals next ih => exact ⟨h.1, fun c => ih c (h.2 c)⟩
  | joinAll s members re next ih => exact ⟨fun g => ih _ (h.1 g), fun r hr => ih _ (h.2 r hr)⟩
  | run s c next ih => exact ⟨fun v hv => ih _ (h.1 v hv), fun r hr => ih _ (h.2 r hr)⟩
  | resume c input next ih => exact h.elim
  | claim c task next ih => exact h.elim
  | release c next ih => exact h.elim

theorem mono {x : Action β σ α} {post' : α → Prop} (h : x.Upholds L post err)
    (hpost : ∀ a, post a → post' a) (herr : ∀ r, err r → err' r) : x.Upholds L post' err' := by
  induction x with
  | done result =>
      rcases result with (r | _ | _ | _ | _) | a
      · exact herr r h
      · trivial
      · trivial
      · trivial
      · trivial
      · exact hpost a h
  | read next ih => exact fun s hs => ih s (h s hs)
  | modify f next ih => exact ⟨h.1, ih h.2⟩
  | identity next ih => exact fun n => ih n (h n)
  | spawn name body locals next ih => exact ⟨h.1, fun c => ih c (h.2 c)⟩
  | joinAll s members re next ih => exact ⟨fun g => ih _ (h.1 g), fun r hr => ih _ (h.2 r hr)⟩
  | run s c next ih => exact ⟨fun v hv => ih _ (h.1 v hv), fun r hr => ih _ (h.2 r hr)⟩
  | resume c input next ih => exact h.elim
  | claim c task next ih => exact h.elim
  | release c next ih => exact h.elim

end Upholds

end Action

/-- The bodies of coroutines uphold a law: they leave off with allowed bindings and steps. -/
def Bodies.Upholds {β σ : Type} (bodies : Bodies β σ) (L : Law β σ) : Prop :=
  ∀ body frame input, L.body body frame.locals → L.input input →
    (bodies.resume body frame input).Upholds L (fun r => L.body body r.1.locals ∧ L.step r.2) L.record

namespace World

variable {β σ α : Type} {L : Law β σ} {w w' : World β σ}

/-- Everything in the tables of a world is allowed. -/
structure Lawful (L : Law β σ) (w : World β σ) : Prop where
  bodies : ∀ {i x}, w.handles.get? i = some x → L.body x.body x.frame.locals
  recorded : ∀ {i x o}, w.handles.get? i = some x → x.outcome = some o → L.outcome o
  handed : ∀ {t x}, w.tasks.get? t = some x → L.input x.inbox
  ended : ∀ {t x o}, w.tasks.get? t = some x → x.outcome = some o → L.outcome o
  shared : L.shared w.shared

/-- Something was done in a world, and ended with what is allowed. -/
structure Ends (L : Law β σ) (post : α → Prop) (err : Record → Prop)
    (result : Except Abort α × World β σ) : Prop where
  lawful : result.2.Lawful L
  value : ∀ a, result.1 = .ok a → post a
  raised : ∀ r, result.1 = .error (.script r) → err r

namespace Ends

variable {post : α → Prop} {err : Record → Prop}

theorem ok (h : w.Lawful L) {a : α} (ha : post a) : Ends L post err (.ok a, w) :=
  ⟨h, fun _ e => Except.ok.inj e ▸ ha, nofun⟩

theorem script (h : w.Lawful L) {r : Record} (hr : err r) :
    Ends L post err ((.error (.script r), w) : Except Abort α × World β σ) :=
  ⟨h, nofun, fun _ e => Abort.script.inj (Except.error.inj e) ▸ hr⟩

theorem error (h : w.Lawful L) {e : Abort} (he : ∀ r, e = .script r → err r) :
    Ends L post err ((.error e, w) : Except Abort α × World β σ) :=
  ⟨h, nofun, fun r e => he r (Except.error.inj e)⟩

end Ends

/-! ### Parts of a turn -/

namespace Lawful

/-- Rows and shared state carry a law over to another world. -/
theorem of_tables (h : w.Lawful L) (hhandles : w'.handles = w.handles) (htasks : w'.tasks = w.tasks)
    (hshared : w'.shared = w.shared) : w'.Lawful L where
  bodies hx := h.bodies (hhandles ▸ hx)
  recorded hx := h.recorded (hhandles ▸ hx)
  handed hx := h.handed (htasks ▸ hx)
  ended hx := h.ended (htasks ▸ hx)
  shared := hshared ▸ h.shared

theorem modifyHandle (h : w.Lawful L) (c : CoroutineRef) {f : Handle β → Handle β}
    (hbody : ∀ {x}, w.handles.get? c.id = some x → L.body (f x).body (f x).frame.locals)
    (hout : ∀ {x o}, w.handles.get? c.id = some x → (f x).outcome = some o → L.outcome o) :
    (w.modifyHandle c f).Lawful L := by
  refine ⟨fun {i x} hx => ?_, fun {i x o} hx ho => ?_, h.handed, h.ended, h.shared⟩ <;>
    · rw [get?_handles_modifyHandle] at hx
      split at hx
      · next e =>
          subst e
          obtain ⟨y, hy, rfl⟩ := Option.map_eq_some_iff.mp hx
          first
            | exact hbody hy
            | exact hout hy ho
      · first
          | exact h.bodies hx
          | exact h.recorded hx ho

/-- A change of a coroutine that leaves its body, frame and outcome. -/
theorem mark (h : w.Lawful L) (c : CoroutineRef) {f : Handle β → Handle β}
    (hf : ∀ x, (f x).body = x.body ∧ (f x).frame = x.frame ∧ (f x).outcome = x.outcome) :
    (w.modifyHandle c f).Lawful L := by
  refine h.modifyHandle c (fun {x} hx => ?_) fun {x o} hx ho => ?_
  · rw [(hf x).1, (hf x).2.1]
    exact h.bodies hx
  · rw [(hf x).2.2] at ho
    exact h.recorded hx ho

theorem modifyTask (h : w.Lawful L) (t : Nat) {f : Task → Task}
    (hin : ∀ {x}, w.tasks.get? t = some x → L.input (f x).inbox)
    (hout : ∀ {x o}, w.tasks.get? t = some x → (f x).outcome = some o → L.outcome o) :
    (w.modifyTask t f).Lawful L := by
  refine ⟨h.bodies, h.recorded, fun {u x} hx => ?_, fun {u x o} hx ho => ?_, h.shared⟩ <;>
    · rw [get?_tasks_modifyTask] at hx
      split at hx
      · next e =>
          subst e
          obtain ⟨y, hy, rfl⟩ := Option.map_eq_some_iff.mp hx
          first
            | exact hin hy
            | exact hout hy ho
      · first
          | exact h.handed hx
          | exact h.ended hx ho

/-- A task is handed an input. -/
theorem hand (h : w.Lawful L) (t : Nat) {f : Task → Task} (hin : ∀ x, L.input (f x).inbox)
    (hout : ∀ x, (f x).outcome = x.outcome) : (w.modifyTask t f).Lawful L :=
  h.modifyTask t (fun _ => hin _) fun {x o} hx ho => h.ended hx (by rwa [← hout x])

/-- A change of a task that leaves its inbox and its outcome. -/
theorem markTask (h : w.Lawful L) (t : Nat) {f : Task → Task} (hin : ∀ x, (f x).inbox = x.inbox)
    (hout : ∀ x, (f x).outcome = x.outcome) : (w.modifyTask t f).Lawful L :=
  h.modifyTask t (fun {x} hx => by rw [hin x]; exact h.handed hx)
    fun {x o} hx ho => h.ended hx (by rwa [← hout x])

theorem claim (h : w.Lawful L) (c : CoroutineRef) (task : Nat) : (w.claim c task).2.Lawful L := by
  rcases e : w.claim c task with ⟨- | f, w'⟩
  · obtain ⟨x, -, -, -, rfl⟩ := claim_eq_none e
    exact h.mark c fun _ => ⟨rfl, rfl, rfl⟩
  · obtain rfl := claim_eq_some e
    exact h

theorem emit (h : w.Lawful L) (s : Nat) (e : Event) : (w.emit s e).Lawful L :=
  h.of_tables rfl rfl rfl

theorem release (h : w.Lawful L) (c : CoroutineRef) : (w.release c).Lawful L :=
  h.mark c fun _ => ⟨rfl, rfl, rfl⟩

/-- A coroutine is made of an allowed body with allowed bindings. -/
theorem spawn (h : w.Lawful L) (name : String) {body : β} {locals : Bindings Value}
    (hbody : L.body body locals) : (w.spawn name body locals).2.Lawful L := by
  refine ⟨fun {i x} hx => ?_, fun {i x o} hx ho => ?_, h.handed, h.ended, h.shared⟩ <;>
    · replace hx := (Table.get?_push ..).symm.trans hx
      split at hx
      · cases hx
        first
          | exact hbody
          | cases ho
      · first
          | exact h.bodies hx
          | exact h.recorded hx ho

theorem newTask (h : w.Lawful L) (s : Nat) (c : CoroutineRef) (index : Nat)
    (group : Option GroupRef) : (w.newTask s c index group).2.Lawful L := by
  obtain ⟨id, hrow⟩ := w.get?_tasks_newTask s c index group
  refine ⟨h.bodies, h.recorded, fun {u x} hx => ?_, fun {u x o} hx ho => ?_, h.shared⟩ <;>
    · rw [hrow] at hx
      split at hx
      · cases hx
        first
          | exact trivial
          | cases ho
      · first
          | exact h.handed hx
          | exact h.ended hx ho

/-- What a group comes to is allowed if the outcomes of its members are. -/
theorem gatherOutcomes (hL : L.Closed) (re : Bool) {tasks : List Task}
    (h : ∀ x ∈ tasks, ∀ o, x.outcome = some o → L.outcome o) (n : Nat) :
    ∀ values, (World.gatherOutcomes re tasks n).1 = .ok values →
      (∀ vs, values = .ok vs → ∀ v ∈ vs, L.value v) ∧ ∀ r, values = .error r → L.record r := by
  induction tasks generalizing n with
  | nil =>
      intro values e
      cases e
      exact ⟨fun vs e v hv => (by cases e; cases hv), (fun _ h => by cases h)⟩
  | cons x rest ih =>
      have hrest := fun n => ih (fun y hy => h y (List.mem_cons_of_mem x hy)) n
      have hx := h x List.mem_cons_self
      -- one more value in front
      have hcons : ∀ {v : Value} {m : Nat} {values}, L.value v →
          (World.gatherOutcomes re rest m).1.map (fun values => values.map (v :: ·)) = .ok values →
          (∀ vs, values = .ok vs → ∀ v ∈ vs, L.value v) ∧ ∀ r, values = .error r → L.record r := by
        intro v m values hv e
        cases hg : (World.gatherOutcomes re rest m).1 with
        | error a =>
            rw [hg] at e
            cases e
        | ok more =>
            rw [hg] at e
            cases e
            obtain ⟨hvs, hr⟩ := hrest m more hg
            cases more with
            | error r => exact ⟨(fun _ h => by cases h), hr⟩
            | ok vs =>
                refine ⟨fun ws e u hu => ?_, (fun _ h => by cases h)⟩
                cases e
                rcases List.mem_cons.mp hu with rfl | hu
                · exact hv
                · exact hvs vs rfl u hu
      intro values e
      simp only [World.gatherOutcomes] at e
      split at e
      · cases e
      · next v ho => exact hcons (hx _ ho) e
      · next r ho =>
          have hr := hx _ ho
          split at e
          · exact hcons (hL.exception hr) e
          · cases e
            exact ⟨(fun _ h => by cases h), fun r' e => Except.error.inj e ▸ hr⟩

/-- A group without the outcome of a member is an error of the host. -/
theorem gatherOutcomes_ne_script (re : Bool) (tasks : List Task) (n : Nat) (r : Record) :
    (World.gatherOutcomes re tasks n).1 ≠ .error (.script r) := by
  induction tasks generalizing n with
  | nil => exact (fun h => by cases h)
  | cons x rest ih =>
      have hmap : ∀ (v : Value) (m : Nat), (World.gatherOutcomes re rest m).1.map
          (fun values => values.map (v :: ·)) ≠ .error (.script r) := by
        intro v m e
        refine ih m ?_
        cases hg : (World.gatherOutcomes re rest m).1 with
        | error a =>
            rw [hg] at e
            exact e
        | ok more =>
            rw [hg] at e
            cases e
      simp only [World.gatherOutcomes]
      split
      · exact (fun h => by cases h)
      · exact hmap _ _
      · split
        · exact hmap _ _
        · exact (fun h => by cases h)

theorem settle (h : w.Lawful L) (hL : L.Closed) (g : GroupRef) :
    (w.settle g).2.Lawful L ∧ (∀ o, (w.settle g).1 = .ok o → L.outcome o) ∧
      ∀ r, (w.settle g).1 ≠ .error (.script r) := by
  unfold World.settle
  split
  · refine ⟨h, fun o e => ?_, nofun⟩
    cases e
    exact hL.list fun v hv => by cases hv
  · next x hx =>
      have hmembers : ∀ y ∈ x.tasks.filterMap w.tasks.get?, ∀ o, y.outcome = some o →
          L.outcome o := fun y hy o ho => by
        obtain ⟨u, -, hu⟩ := List.mem_filterMap.mp hy
        exact h.ended hu ho
      have hgather := gatherOutcomes hL x.returnExceptions hmembers w.nextIdentity
      have hscript := gatherOutcomes_ne_script x.returnExceptions
        (x.tasks.filterMap w.tasks.get?) w.nextIdentity
      rcases hg : World.gatherOutcomes x.returnExceptions (x.tasks.filterMap w.tasks.get?)
        w.nextIdentity with ⟨e | values, n⟩ <;> rw [hg] at hgather hscript
      · exact ⟨h.of_tables rfl rfl rfl, nofun, fun r e => hscript r (by cases e; rfl)⟩
      · refine ⟨h.of_tables rfl rfl rfl, fun o e => ?_, nofun⟩
        cases e
        obtain ⟨hvs, hr⟩ := hgather values rfl
        cases values with
        | ok vs => exact hL.list (hvs vs rfl)
        | error r => exact hr r rfl

theorem closeGroup (h : w.Lawful L) (hL : L.Closed) (s : Nat) (g : GroupRef) :
    (w.closeGroup s g).2.Lawful L ∧ ∀ r, (w.closeGroup s g).1 ≠ .error (.script r) := by
  unfold World.closeGroup
  split
  · unfold settleGroup
    split
    · exact ⟨h, nofun⟩
    · next t _ =>
        obtain ⟨hw, hout, herr⟩ := h.settle hL g
        split
        · next e =>
            rw [e] at hw herr
            exact ⟨hw, fun r hr => herr r (congrArg Except.error (Except.error.inj hr))⟩
        · next outcome w' e =>
            rw [e] at hw hout
            have hin : L.input outcome.input := Law.input_of_outcome (hout outcome rfl)
            have hw' : (w'.modifyTask t fun x => { x with inbox := outcome.input }).Lawful L :=
              hw.hand t (fun _ => hin) fun _ => rfl
            exact ⟨hw'.of_tables rfl rfl rfl, nofun⟩
  · exact ⟨h, nofun⟩

theorem startMember (h : w.Lawful L) (hL : L.Closed) (s : Nat) (g : GroupRef) (index : Nat)
    (c : CoroutineRef) : (w.startMember s g index c).Lawful L := by
  have hadd : (w.addMember s g index c).2.Lawful L :=
    (h.newTask s c index (some g)).of_tables rfl rfl rfl
  have hclaim := hadd.claim c ((w.addMember s g index c).2.taskId (w.addMember s g index c).1)
  simp only [World.startMember]
  split
  · next f w' e =>
      have hf : f.isUsage = true := by
        rcases busy_or_reuse_of_claim (congrArg Prod.fst e) with rfl | rfl <;> rfl
      rw [e] at hclaim
      refine hclaim.modifyTask _ (fun {x} hx => ?_) fun {x o} _ ho => ?_
      · exact (hclaim.handed hx : L.input x.inbox)
      · cases ho
        exact hL.usage hf
  · next e =>
      rw [e] at hclaim
      exact hclaim.of_tables rfl rfl rfl

theorem startMembers (h : w.Lawful L) (hL : L.Closed) (s : Nat) (g : GroupRef) (index : Nat)
    (cs : List CoroutineRef) : (w.startMembers s g index cs).Lawful L := by
  induction cs generalizing w index with
  | nil => exact h
  | cons c rest ih => exact ih (h.startMember hL s g index c) (index + 1)

theorem startGroup (h : w.Lawful L) (hL : L.Closed) (s t : Nat) (g : GroupRef) :
    (w.startGroup s t g).2.Lawful L ∧ ∀ r, (w.startGroup s t g).1 ≠ .error (.script r) := by
  have hopen : (w.opening s t g).Lawful L := h.of_tables rfl rfl rfl
  rw [startGroup_eq]
  exact (hopen.startMembers hL s g 0 _).closeGroup hL s g

theorem deliver (h : w.Lawful L) (s t : Nat) {input : Input} (hin : L.input input) :
    (w.deliver s t input).Lawful L := by
  have hw : (w.modifyTask t fun x => { x with inbox := input, state := .suspended }).Lawful L :=
    h.hand t (fun _ => hin) fun _ => rfl
  exact hw.of_tables rfl rfl rfl

theorem suspend (h : w.Lawful L) (hL : L.Closed) (s t : Nat) (target : Target) :
    (w.suspend s t target).2.Lawful L ∧ ∀ r, (w.suspend s t target).1 ≠ .error (.script r) := by
  have hw : (w.modifyTask t fun x => { x with state := .suspended }).Lawful L :=
    h.markTask t (fun _ => rfl) fun _ => rfl
  cases target with
  | group g =>
      simp only [World.suspend]
      split
      · exact ⟨hw.deliver s t (hL.usage rfl), (fun _ h => by cases h)⟩
      · exact hw.startGroup hL s t g
  | coroutine c =>
      have hclaim := hw.claim c ((w.modifyTask t fun x => { x with state := .suspended }).taskId t)
      rcases e : (w.modifyTask t fun x => { x with state := .suspended }).claim c
        ((w.modifyTask t fun x => { x with state := .suspended }).taskId t) with ⟨failure, w'⟩
      obtain ⟨w₃, hw₃, he⟩ := suspend_coroutine (s := s) rfl e
      rw [e] at hclaim
      have hlaw : w₃.Lawful L := by
        rw [hw₃]
        cases failure with
        | none => exact hclaim.markTask t (fun _ => rfl) fun _ => rfl
        | some f =>
            have hf : f.isUsage = true := by
              rcases busy_or_reuse_of_claim (congrArg Prod.fst e) with rfl | rfl <;> rfl
            exact hclaim.hand t (fun _ => hL.usage hf) fun _ => rfl
      rw [he]
      exact ⟨hlaw.of_tables rfl rfl rfl, (fun _ h => by cases h)⟩

theorem finish (h : w.Lawful L) (hL : L.Closed) (s t : Nat) {o : Outcome} (ho : L.outcome o) :
    (w.finish s t o).2.Lawful L ∧ ∀ r, (w.finish s t o).1 ≠ .error (.script r) := by
  have hw : (w.modifyTask t (·.ended o)).Lawful L :=
    h.modifyTask t (fun {x} hx => (h.handed hx : L.input x.inbox)) fun {x o'} _ e => by
      cases e
      exact ho
  simp only [World.finish]
  split
  · exact ⟨hw, (fun _ h => by cases h)⟩
  · split
    · exact ⟨hw.emit .., (fun _ h => by cases h)⟩
    · exact (hw.emit ..).closeGroup hL s _

theorem unwind (h : w.Lawful L) (hL : L.Closed) (s t : Nat) (top : CoroutineRef) {o : Outcome}
    (ho : L.outcome o) :
    (w.unwind s t top o).2.Lawful L ∧ ∀ r, (w.unwind s t top o).1 ≠ .error (.script r) := by
  have htask : (w.modifyTask t fun x => { x with chain := x.chain.tail }).Lawful L :=
    h.markTask t (fun _ => rfl) fun _ => rfl
  have hw := htask.release top
  simp only [World.unwind]
  split
  · exact hw.finish hL s t ho
  · exact ⟨hw.deliver s t (Law.input_of_outcome ho), (fun _ h => by cases h)⟩

theorem absorb (h : w.Lawful L) (hL : L.Closed) (s t : Nat) (top : CoroutineRef) {step : Step}
    (hstep : L.step step) :
    (w.absorb s t top step).2.Lawful L ∧ ∀ r, (w.absorb s t top step).1 ≠ .error (.script r) := by
  cases step with
  | await target => exact h.suspend hL s t target
  | ret v => exact h.unwind hL s t top (o := .ok v) hstep
  | raise r => exact h.unwind hL s t top (o := .error r) hstep

/-- What a turn takes up is allowed. -/
theorem takeUp (h : w.Lawful L) (hL : L.Closed) (s t : Nat) :
    Ends L (fun x => ∀ top input, x = some (top, input) → L.input input) L.record
      (w.takeUp s t) := by
  simp only [World.takeUp]
  split
  · exact .ok h (fun _ _ h => by cases h)
  · next x hx =>
      split
      · exact .ok h (fun _ _ h => by cases h)
      · have hw : (w.modifyContext s fun ctx => { ctx with steps := ctx.steps + 1 }).Lawful L :=
          h.of_tables rfl rfl rfl
        split
        · next limit _ =>
            exact .script (hw.emit ..) (hL.usage (f := .budget limit) rfl)
        · have hstart : L.input .start := trivial
          have htaken : ((w.modifyContext s fun ctx => { ctx with steps := ctx.steps + 1 }).modifyTask t
              fun x => { x with state := .running, inbox := .start }).Lawful L :=
            hw.hand t (fun _ => hstart) fun _ => rfl
          refine .ok htaken ?_
          intro top input e
          cases e
          exact h.handed hx

end Lawful

/-! ### Actions and runs -/

section

variable {resume : CoroutineRef → Input → World β σ → Except Abort Step × World β σ}

/-- An action that upholds a law keeps a world lawful, if the runs that it asks for do. -/
theorem Lawful.perform {runner : Runner β σ} {a : Action β σ α} {post : α → Prop}
    {err : Record → Prop} (h : w.Lawful L) (hL : L.Closed)
    (hrun : ∀ s c {w : World β σ}, w.Lawful L → Ends L L.value L.record (runner.run s c w))
    (ha : a.Upholds L post err) : Ends L post err (a.perform runner w) := by
  induction a generalizing w with
  | done result =>
      rcases result with (r | _ | _ | _ | _) | a
      · exact .script h ha
      · exact .error h nofun
      · exact .error h nofun
      · exact .error h nofun
      · exact .error h nofun
      · exact .ok h ha
  | read next ih => exact ih _ h (ha _ h.shared)
  | modify f next ih =>
      exact ih ⟨h.bodies, h.recorded, h.handed, h.ended, ha.1 _ h.shared⟩ ha.2
  | identity next ih => exact ih _ (h.of_tables rfl rfl rfl) (ha _)
  | spawn name body locals next ih => exact ih _ (h.spawn name ha.1) (ha.2 _)
  | joinAll s members re next ih =>
      simp only [Action.perform]
      split
      · exact ih _ (h.of_tables rfl rfl rfl) (ha.1 _)
      · exact ih _ h (ha.2 _ (hL.usage rfl))
  | run s c next ih =>
      have hr := hrun s c h
      rcases e : runner.run s c w with ⟨(r | _ | _ | _ | _) | v, w'⟩ <;> rw [e] at hr <;>
        simp only [Action.perform, e]
      · exact ih _ hr.lawful (ha.2 r (hr.raised r rfl))
      · exact .error hr.lawful nofun
      · exact .error hr.lawful nofun
      · exact .error hr.lawful nofun
      · exact .error hr.lawful nofun
      · exact ih _ hr.lawful (ha.1 v (hr.value v rfl))
  | resume c input next ih => exact ha.elim
  | claim c task next ih => exact ha.elim
  | release c next ih => exact ha.elim

theorem Lawful.step (h : w.Lawful L) (hL : L.Closed)
    (hres : ∀ c {input} {w : World β σ}, w.Lawful L → L.input input →
      Ends L L.step L.record (resume c input w)) (s t : Nat) :
    Ends L (fun _ => True) L.record (w.step resume s t) := by
  have htake := h.takeUp hL s t
  simp only [World.step]
  rcases e : w.takeUp s t with ⟨e' | _ | ⟨top, input⟩, w₁⟩ <;> rw [e] at htake
  · exact .error htake.lawful fun r hr => htake.raised r (congrArg Except.error hr)
  · exact .ok htake.lawful trivial
  · have hr := hres top htake.lawful (htake.value _ rfl top input rfl)
    simp only
    rcases e' : resume top input w₁ with ⟨a | step, w₂⟩ <;> rw [e'] at hr
    · exact .error hr.lawful fun r hr' => hr.raised r (congrArg Except.error hr')
    · obtain ⟨hw, herr⟩ := hr.lawful.absorb hL s t top (hr.value step rfl)
      exact ⟨hw, fun _ _ => trivial, fun r e => absurd e (herr r)⟩

theorem Lawful.drain (h : w.Lawful L) (hL : L.Closed)
    (hres : ∀ c {input} {w : World β σ}, w.Lawful L → L.input input →
      Ends L L.step L.record (resume c input w)) (s fuel : Nat) :
    Ends L (fun _ => True) L.record (World.drain resume s fuel w) := by
  induction fuel generalizing w with
  | zero => exact .error h nofun
  | succ fuel ih =>
      simp only [World.drain]
      split
      · exact .ok h trivial
      · next t w' hd =>
          obtain ⟨_, _, -, -, hw⟩ := dequeue_eq_some hd
          have hw' : w'.Lawful L := by
            rw [hw]
            exact h.of_tables rfl rfl rfl
          have hstep := hw'.step hL hres s t
          split
          · next e =>
              rw [e] at hstep
              exact ih hstep.lawful
          · next e =>
              rw [e] at hstep
              exact .error hstep.lawful fun r hr => hstep.raised r (congrArg Except.error hr)

theorem Lawful.start (h : w.Lawful L) (hL : L.Closed) (s : Nat) (c : CoroutineRef) :
    Ends L (fun _ => True) L.record (w.start s c) := by
  have hclaim := (h.newTask s c 0 none).claim c
    ((w.newTask s c 0 none).2.taskId (w.newTask s c 0 none).1)
  simp only [World.start]
  split
  · exact .script h (hL.usage rfl)
  · split
    · next f w' e =>
        have hf : f.isUsage = true := by
          rcases busy_or_reuse_of_claim (congrArg Prod.fst e) with rfl | rfl <;> rfl
        rw [e] at hclaim
        exact .script hclaim (hL.usage hf)
    · next w' e =>
        rw [e] at hclaim
        have hw' : (w'.activate s w.tasks.size).Lawful L := hclaim.of_tables rfl rfl rfl
        exact .ok (hw'.emit ..) trivial

theorem Lawful.runWith (h : w.Lawful L) (hL : L.Closed)
    (hres : ∀ c {input} {w : World β σ}, w.Lawful L → L.input input →
      Ends L L.step L.record (resume c input w)) (fuel s : Nat) (c : CoroutineRef) :
    Ends L L.value L.record (w.runWith resume fuel s c) := by
  have hstart := h.start hL s c
  have hover : ∀ {v : World β σ}, v.Lawful L → ((v.release c).deactivate s).Lawful L := fun hv =>
    (hv.release c).of_tables rfl rfl rfl
  simp only [World.runWith]
  rcases e : w.start s c with ⟨a | root, w₁⟩ <;> rw [e] at hstart
  · exact .error hstart.lawful fun r hr => hstart.raised r (congrArg Except.error hr)
  · have hdrain := hstart.lawful.drain hL hres s fuel
    simp only
    rcases e' : World.drain resume s fuel w₁ with ⟨a | ⟨⟩, w₂⟩ <;> rw [e'] at hdrain
    · exact .error (hover hdrain.lawful) fun r hr => hdrain.raised r (congrArg Except.error hr)
    · simp only [conclude]
      cases ho : w₂.taskOutcome? root with
      | none => exact .error (hover hdrain.lawful) (fun _ h => by cases h)
      | some o =>
          obtain ⟨x, hx, hxo⟩ := Option.bind_eq_some_iff.mp ho
          have hlaw := hdrain.lawful.ended hx hxo
          have hw : (w₂.emit s (.runEnd o.isOk (((w₂.context? s).map RunContext.steps).getD 0))).Lawful
              L := hdrain.lawful.of_tables rfl rfl rfl
          cases o with
          | ok v => exact .ok (hover hw) hlaw
          | error r => exact .script (hover hw) hlaw

end

/-- A coroutine that leaves off keeps a world lawful, whether its body ended with a step or an exception
of the script or was broken off. -/
theorem Ends.leave {c : CoroutineRef} {body : β} {frame : Frame}
    {result : Except Abort (Frame × Step) × World β σ}
    (h : Ends L (fun r => L.body body r.1.locals ∧ L.step r.2) L.record result)
    (hbody : ∀ {z}, result.2.handles.get? c.id = some z → z.body = body)
    (hframe : L.body body frame.locals) :
    Ends L L.step L.record (result.2.leave c frame result.1) := by
  -- the coroutine has left off with a step
  have hleft : ∀ {frame' : Frame} {step : Step}, L.body body frame'.locals → L.step step →
      (result.2.modifyHandle c (·.left frame' step)).Lawful L := by
    intro frame' step hf hs
    refine h.lawful.modifyHandle c (fun {z} hz => ?_) fun {z o} hz ho => ?_
    · have : (z.left frame' step).body = z.body ∧ (z.left frame' step).frame = frame' := by
        cases step <;> exact ⟨rfl, rfl⟩
      rw [this.1, this.2, hbody hz]
      exact hf
    · cases step with
      | await target => exact h.lawful.recorded hz ho
      | ret v =>
          cases ho
          exact hs
      | raise r =>
          cases ho
          exact hs
  have hbroken : (result.2.modifyHandle c Handle.broken).Lawful L :=
    h.lawful.mark c fun _ => ⟨rfl, rfl, rfl⟩
  rcases hr : result.1 with (r | _ | _ | _ | _) | ⟨frame', step⟩
  · have hs : L.step (.raise r) := h.raised r hr
    exact .ok (hleft hframe hs) hs
  · exact .error hbroken (fun _ e => by cases e)
  · exact .error hbroken (fun _ e => by cases e)
  · exact .error hbroken (fun _ e => by cases e)
  · exact .error hbroken (fun _ e => by cases e)
  · obtain ⟨hf, hs⟩ := h.value _ hr
    exact .ok (hleft hf hs) hs

/-- **Coroutines whose bodies uphold a law keep every world lawful**, by induction on how deep runs may
nest. -/
theorem Lawful.resume {bodies : Bodies β σ} (hL : L.Closed) (hb : bodies.Upholds L) (fuel : Nat)
    (c : CoroutineRef) {input : Input} (h : w.Lawful L) (hin : L.input input) :
    Ends L L.step L.record (World.resume bodies fuel c input w) := by
  induction fuel generalizing c input w with
  | zero => exact .error h nofun
  | succ fuel ih =>
      rw [resume_succ, resumeWith]
      unfold enter
      cases hx : w.handles.get? c.id with
      | none => exact .script h (hL.usage rfl)
      | some x =>
          cases hr : x.refusal? input with
          | some e =>
              simp only [hr]
              refine .error h fun r he => ?_
              subst he
              obtain ⟨f, hf, rfl⟩ := Handle.usage_of_refusal? hr
              exact hL.usage hf
          | none =>
              simp only [hr]
              have hw := h.mark c (f := (·.entered (!input.isStart && bodies.forgets x.body)))
                fun _ => ⟨rfl, rfl, rfl⟩
              have hrun : ∀ s c {w : World β σ}, w.Lawful L →
                  Ends L L.value L.record ((runner bodies fuel).run s c w) := fun s c {w} hw =>
                hw.runWith hL (fun c {input w} hw hin => ih c hw hin) fuel s c
              have hp := hw.perform hL hrun (hb x.body x.frame input (h.bodies hx) hin)
              -- nothing but the end of its resume changes the body
              obtain ⟨z, hz, -, -, hbody⟩ := Steady.perform bodies fuel
                (bodies.resume x.body x.frame input)
                (w.modifyHandle c (·.entered (!input.isStart && bodies.forgets x.body)))
                (get?_modifyHandle_self hx _) rfl
              generalize (bodies.resume x.body x.frame input).perform (runner bodies fuel) _ = result
                at hp hz
              exact hp.leave (fun hz' => (Option.some.inj (hz.symm.trans hz')) ▸ hbody) (h.bodies hx)

end World

end Coroutines
