import Coroutines.Proofs.Deeds.Rows
import Mathlib.Data.List.Induction

/-!
# The life cycle of a coroutine

What holds of the calls on one coroutine, in whatever order they come and wherever they are made, also
by the body of the coroutine itself (`LifeCycle`).  The calls of an execution are lawful one by one and
linked by the rows that they find and leave (`World.Attests`); what speaks of several calls follows from
what lawful calls keep of a row (`Linked.keeps`).
-/

namespace Coroutines

variable {β σ : Type}

/-- The ways in which the status of a coroutine changes. -/
inductive Status.Moves : Status → Status → Prop
  | start : Moves .created .running
  | goOn : Moves .suspended .running
  | suspend : Moves .running .suspended
  | complete : Moves .running .completed
  | fail : Moves .running .failed

namespace Call

/-- The body is entered. -/
def Enters (c : Call β) : Prop := ∃ input, c.act = .enter input

/-- The coroutine is claimed with success. -/
def Claims (c : Call β) : Prop := ∃ task, c.act = .claim task none

end Call

/-- The outcome of a coroutine, if there is one. -/
def outcome? (x : Option (Handle β)) : Option Outcome := x.bind Handle.outcome

/-- **The life cycle of a coroutine**, by all calls on it since the first world and the row that it has
come to. -/
structure LifeCycle (log : List (Call β)) (now : Option (Handle β)) : Prop where
  /-- The row is changed by the calls only. -/
  linked : Linked none log now
  lawful : ∀ c ∈ log, c.Lawful
  /-- From created to running, from there to suspended and back, or to an end. -/
  moves : ∀ c ∈ log, ∀ x ∈ c.before, ∀ y ∈ c.after, y.status = x.status ∨ x.status.Moves y.status
  /-- The input that the body is first entered with is the start, and no later one is. -/
  start : ∀ {earlier c later input}, log = earlier ++ c :: later → c.act = .enter input →
    (input.isStart = true ↔ ∀ d ∈ earlier, ¬ d.Enters)
  /-- How the body ends tells the status and the outcome. -/
  left : ∀ c ∈ log, ∀ result, c.act = .leave result →
    ∃ y, c.after = some y ∧ y.status = statusAfter result ∧ y.outcome = outcomeAfter result
  /-- Nothing else gives an outcome. -/
  outcome : ∀ c ∈ log, ∀ o, outcome? c.before ≠ some o ∧ outcome? c.after = some o ↔
    ∃ result, c.act = .leave result ∧ outcomeAfter result = some o
  /-- An outcome stays. -/
  settled : ∀ {earlier c later o}, log = earlier ++ c :: later → outcome? c.after = some o →
    (∀ d ∈ later, outcome? d.after = some o) ∧ outcome? now = some o
  /-- Between two claims there is a release. -/
  claims : ∀ {earlier c between d later}, log = earlier ++ c :: between ++ d :: later →
    c.Claims → d.Claims → ∃ e ∈ between, e.act = .release

/-! ### What lawful calls keep -/

section

variable {x y : Option (Handle β)} {log : List (Call β)}

/-- What every call of a list keeps of the row holds after each of them and at the end. -/
theorem Linked.keeps {P : Option (Handle β) → Prop} (h : Linked x log y) (hx : P x)
    (hkeep : ∀ c ∈ log, P c.before → P c.after) : (∀ c ∈ log, P c.before ∧ P c.after) ∧ P y := by
  induction log generalizing x with
  | nil => exact ⟨fun c hc => absurd hc List.not_mem_nil, h ▸ hx⟩
  | cons c log ih =>
    obtain ⟨rfl, h⟩ := h
    have hc := hkeep c (List.mem_cons_self ..) hx
    obtain ⟨hall, hy⟩ := ih h hc fun d hd => hkeep d (List.mem_cons_of_mem _ hd)
    exact ⟨fun d hd => (List.mem_cons.mp hd).elim (fun e => e ▸ ⟨hx, hc⟩) (hall d), hy⟩

/-- Before a call and after it. -/
theorem Linked.at {earlier later : List (Call β)} {c : Call β}
    (h : Linked x (earlier ++ c :: later) y) : Linked x earlier c.before ∧ Linked c.after later y := by
  obtain ⟨z, h, rfl, h'⟩ := linked_append.mp h
  exact ⟨h, h'⟩

/-- What a lawful call means for status and outcome. -/
inductive Call.Effect (c : Call β) : Prop
  | absent (hb : c.before = none) (ha : c.after = none)
  | made (name : String) (body : β) (locals : Bindings Value) (hb : c.before = none)
      (ha : c.after = some (.create name body locals))
  | kept (x y : Handle β) (hb : c.before = some x) (ha : c.after = some y)
      (hs : y.status = x.status) (ho : y.outcome = x.outcome)
  | entered (input : Input) (x : Handle β) (forgets : Bool) (hact : c.act = .enter input)
      (hb : c.before = some x) (ha : c.after = some (x.entered forgets))
      (hin : x.status = .created ∧ input.isStart = true ∨
        x.status = .suspended ∧ input.isStart = false)
  | left (result : Except Abort (Frame × Step)) (x : Handle β) (frame : Frame)
      (hact : c.act = .leave result) (hb : c.before = some x)
      (ha : c.after = some (x.after frame result)) (hs : x.status = .running)

theorem Call.Lawful.effect {c : Call β} (h : c.Lawful) : c.Effect := by
  unfold Lawful at h
  obtain ⟨row, act, before, after⟩ := c
  cases act with
  | make =>
    obtain ⟨hb, name, body, locals, ha⟩ := h
    exact .made name body locals hb ha
  | claim task refusal =>
    obtain ⟨-, ha⟩ := h
    cases before with
    | none =>
      refine .absent rfl ?_
      dsimp only at ha ⊢
      rw [ha]
      split <;> rfl
    | some x =>
      dsimp only at ha
      split at ha <;> exact .kept x _ rfl ha rfl rfl
  | release =>
    cases before with
    | none => exact .absent rfl h
    | some x => exact .kept x _ rfl h rfl rfl
  | refuse input reason =>
    cases before with
    | none => exact .absent rfl h.1
    | some x => exact .kept x _ rfl h.1 rfl rfl
  | enter input =>
    obtain ⟨x, forgets, hb, ha, hin⟩ := h
    exact .entered input x forgets rfl hb ha hin
  | leave result =>
    obtain ⟨x, frame, hb, ha, hs⟩ := h
    exact .left result x frame rfl hb ha hs

/-- A coroutine that has not finished has no outcome. -/
def Unsettled (x : Option (Handle β)) : Prop :=
  ∀ h ∈ x, h.status.isFinished = false → h.outcome = none

/-- A coroutine has started. -/
def Started (x : Option (Handle β)) : Prop := ∃ h, x = some h ∧ h.status ≠ .created

/-- A coroutine belongs to a task. -/
def HasOwner (x : Option (Handle β)) : Prop := ∃ h, x = some h ∧ h.owner ≠ none

namespace Call.Lawful

variable {c : Call β}

theorem unsettled (h : c.Lawful) (hu : Unsettled c.before) : Unsettled c.after := by
  intro z hz hopen
  rcases h.effect with ⟨-, ha⟩ | ⟨name, body, locals, -, ha⟩ | ⟨x, y, hb, ha, hs, ho⟩ |
    ⟨input, x, forgets, -, hb, ha, hin⟩ | ⟨result, x, frame, -, hb, ha, hs⟩ <;>
    cases ha.symm.trans hz
  · rfl
  · exact ho.trans (hu x hb (hs ▸ hopen))
  · refine hu x hb ?_
    rcases hin with ⟨e, -⟩ | ⟨e, -⟩ <;> rw [e] <;> rfl
  · rw [Handle.outcome_after (hu x hb (hs ▸ rfl))]
    rw [Handle.status_after] at hopen
    rcases result with e | ⟨_, _ | _ | _⟩ <;> first | rfl | cases hopen

theorem started (h : c.Lawful) (hs : Started c.before) : Started c.after := by
  obtain ⟨z, hz, hne⟩ := hs
  rcases h.effect with ⟨hb, -⟩ | ⟨_, _, _, hb, -⟩ | ⟨x, y, hb, ha, hs, -⟩ |
    ⟨_, _, _, -, hb, ha, -⟩ | ⟨result, x, frame, -, hb, ha, -⟩ <;> cases hb.symm.trans hz
  · exact ⟨y, ha, fun e => hne (hs ▸ e)⟩
  · exact ⟨_, ha, fun e => by cases e⟩
  · refine ⟨_, ha, fun e => ?_⟩
    rw [Handle.status_after] at e
    rcases result with _ | ⟨_, _ | _ | _⟩ <;> cases e

theorem started_of_enters (h : c.Lawful) (he : c.Enters) : Started c.after := by
  obtain ⟨input, hact⟩ := he
  unfold Lawful at h
  rw [hact] at h
  obtain ⟨x, forgets, -, ha, -⟩ := h
  exact ⟨_, ha, fun e => by cases e⟩

/-- A coroutine starts by an entry only. -/
theorem enters_of_started (h : c.Lawful) (hb : ¬ Started c.before) (ha : Started c.after) :
    c.Enters := by
  obtain ⟨z, hz, hne⟩ := ha
  rcases h.effect with ⟨-, ha⟩ | ⟨_, _, _, -, ha⟩ | ⟨x, y, hb', ha, hs, -⟩ |
    ⟨input, _, _, hact, -, -, -⟩ | ⟨_, x, _, -, hb', -, hs⟩
  · cases ha.symm.trans hz
  · cases ha.symm.trans hz
    exact absurd rfl hne
  · cases ha.symm.trans hz
    exact absurd ⟨x, hb', fun e => hne (hs.trans e)⟩ hb
  · exact ⟨input, hact⟩
  · exact absurd ⟨x, hb', fun e => by cases hs.symm.trans e⟩ hb

/-- A coroutine that has an outcome keeps it. -/
theorem settled (h : c.Lawful) {o : Outcome} (hu : Unsettled c.before)
    (ho : outcome? c.before = some o) : outcome? c.after = some o := by
  obtain ⟨z, hz, hzo⟩ := Option.bind_eq_some_iff.mp ho
  have hfinished : z.status.isFinished = true := by
    by_contra hopen
    rw [hu z hz (Bool.not_eq_true _ ▸ hopen)] at hzo
    cases hzo
  rcases h.effect with ⟨hb, -⟩ | ⟨_, _, _, hb, -⟩ | ⟨x, y, hb, ha, -, ho'⟩ |
    ⟨_, x, _, -, hb, -, hin⟩ | ⟨_, x, _, -, hb, -, hs⟩ <;> cases hb.symm.trans hz
  · rw [ha]
    exact ho'.trans hzo
  · rcases hin with ⟨e, -⟩ | ⟨e, -⟩ <;> rw [e] at hfinished <;> cases hfinished
  · rw [hs] at hfinished
    cases hfinished

/-- A coroutine that belongs to a task does so until it is released. -/
theorem hasOwner (h : c.Lawful) (hr : c.act ≠ .release) (ho : HasOwner c.before) :
    HasOwner c.after := by
  obtain ⟨x, hx, hne⟩ := ho
  obtain ⟨row, act, before, after⟩ := c
  obtain rfl : before = some x := hx
  cases act with
  | make => cases h.1
  | claim task refusal =>
    obtain ⟨hiff, ha⟩ := h
    have hsome : refusal ≠ none := by
      intro e
      obtain ⟨y, hy, -, hy'⟩ := hiff.mp e
      cases hy
      exact hne hy'
    exact ⟨x, ha.trans (if_neg hsome), hne⟩
  | release => exact absurd rfl hr
  | refuse input reason => exact ⟨x, h.1, hne⟩
  | enter input =>
    obtain ⟨y, forgets, hb, ha, -⟩ := h
    cases hb
    exact ⟨_, ha, hne⟩
  | leave result =>
    obtain ⟨y, frame, hb, ha, -⟩ := h
    cases hb
    exact ⟨_, ha, fun e => hne ((x.owner_after frame result).symm.trans e)⟩

/-- A coroutine that is claimed was free and belongs to the task from then on. -/
theorem claims (h : c.Lawful) (hc : c.Claims) : ¬ HasOwner c.before ∧ HasOwner c.after := by
  obtain ⟨task, hact⟩ := hc
  unfold Lawful at h
  rw [hact] at h
  obtain ⟨x, hx, -, ho⟩ := h.1.mp rfl
  refine ⟨fun ⟨y, hy, hne⟩ => ?_, x.ownedBy task, ?_, fun e => by cases e⟩
  · obtain rfl := Option.some.inj (hx.symm.trans hy)
    exact hne ho
  · rw [h.2, if_pos rfl, hx]
    rfl

theorem moves (h : c.Lawful) {x y : Handle β} (hx : c.before = some x) (hy : c.after = some y) :
    y.status = x.status ∨ x.status.Moves y.status := by
  rcases h.effect with ⟨hb, -⟩ | ⟨_, _, _, hb, -⟩ | ⟨_, _, hb, ha, hs, -⟩ |
    ⟨_, _, forgets, -, hb, ha, hin⟩ | ⟨result, _, frame, -, hb, ha, hs⟩ <;> cases hb.symm.trans hx <;>
    cases ha.symm.trans hy
  · exact .inl hs
  · refine .inr ?_
    rcases hin with ⟨e, -⟩ | ⟨e, -⟩ <;> rw [e]
    · exact .start
    · exact .goOn
  · refine .inr ?_
    rw [hs, Handle.status_after]
    rcases result with _ | ⟨_, _ | _ | _⟩
    · exact .fail
    · exact .suspend
    · exact .complete
    · exact .fail

/-- A body is entered with the start exactly if its coroutine has not started. -/
theorem isStart_iff (h : c.Lawful) {input : Input} (hact : c.act = .enter input) :
    input.isStart = true ↔ ¬ Started c.before := by
  unfold Lawful at h
  rw [hact] at h
  obtain ⟨x, forgets, hb, -, ⟨hs, hi⟩ | ⟨hs, hi⟩⟩ := h
  · exact iff_of_true hi fun ⟨y, hy, hne⟩ => hne (Option.some.inj (hb.symm.trans hy) ▸ hs)
  · exact iff_of_false (fun e => by cases hi.symm.trans e)
      fun hnone => hnone ⟨x, hb, fun e => by cases hs.symm.trans e⟩

/-- The end of a body tells the status and the outcome. -/
theorem left (h : c.Lawful) {result : Except Abort (Frame × Step)} (hu : Unsettled c.before)
    (hact : c.act = .leave result) : outcome? c.before = none ∧
      ∃ y, c.after = some y ∧ y.status = statusAfter result ∧ y.outcome = outcomeAfter result := by
  unfold Lawful at h
  rw [hact] at h
  obtain ⟨x, frame, hb, ha, hs⟩ := h
  have hx : x.outcome = none := hu x hb (hs ▸ rfl)
  refine ⟨?_, _, ha, x.status_after frame result, Handle.outcome_after hx frame result⟩
  rw [hb]
  exact hx

/-- Nothing else gives an outcome. -/
theorem outcome_iff (h : c.Lawful) (hu : Unsettled c.before) (o : Outcome) :
    outcome? c.before ≠ some o ∧ outcome? c.after = some o ↔
      ∃ result, c.act = .leave result ∧ outcomeAfter result = some o := by
  constructor
  · rintro ⟨hb, ha⟩
    rcases h.effect with ⟨-, ha'⟩ | ⟨_, _, _, -, ha'⟩ | ⟨x, y, hb', ha', -, ho⟩ |
      ⟨_, x, forgets, -, hb', ha', -⟩ | ⟨result, -, -, hact, -, -, -⟩
    · rw [ha'] at ha
      cases ha
    · rw [ha'] at ha
      cases ha
    · rw [ha'] at ha
      rw [hb'] at hb
      exact absurd (ho.symm.trans ha) hb
    · rw [ha'] at ha
      rw [hb'] at hb
      exact absurd ha hb
    · obtain ⟨-, y, hy, -, ho⟩ := h.left hu hact
      rw [hy] at ha
      exact ⟨result, hact, ho.symm.trans ha⟩
  · rintro ⟨result, hact, ho⟩
    obtain ⟨hb, y, hy, -, ho'⟩ := h.left hu hact
    refine ⟨fun e => (nomatch hb.symm.trans e), ?_⟩
    rw [hy]
    exact ho'.trans ho

end Call.Lawful

/-! ### What lawful calls amount to -/

/-- A coroutine has started if it was entered. -/
theorem Linked.started_iff (h : Linked none log x) (hl : ∀ c ∈ log, c.Lawful) :
    Started x ↔ ∃ d ∈ log, d.Enters := by
  induction log using List.reverseRecOn generalizing x with
  | nil =>
    subst h
    exact iff_of_false (fun ⟨_, e, _⟩ => by cases e) fun ⟨_, hd, _⟩ => List.not_mem_nil hd
  | append_singleton log d ih =>
    obtain ⟨hlog, rfl⟩ := h.at
    have hd := hl d (List.mem_append_right _ (List.mem_singleton_self d))
    have ih := ih hlog fun c hc => hl c (List.mem_append_left _ hc)
    constructor
    · intro hs
      by_cases hb : Started d.before
      · obtain ⟨c, hc, he⟩ := ih.mp hb
        exact ⟨c, List.mem_append_left _ hc, he⟩
      · exact ⟨d, List.mem_append_right _ (List.mem_singleton_self d), hd.enters_of_started hb hs⟩
    · rintro ⟨c, hc, he⟩
      rcases List.mem_append.mp hc with hc | hc
      · exact hd.started (ih.mpr ⟨c, hc, he⟩)
      · exact hd.started_of_enters (List.mem_singleton.mp hc ▸ he)

theorem Linked.unsettled (h : Linked none log x) (hl : ∀ c ∈ log, c.Lawful) :
    ∀ c ∈ log, Unsettled c.before ∧ Unsettled c.after :=
  (h.keeps (fun _ e => by cases e) fun c hc => (hl c hc).unsettled).1

/-- Where a coroutine that has an owner is claimed again, it was released in between. -/
theorem Linked.exists_release (h : Linked x log y) (hl : ∀ c ∈ log, c.Lawful) (hx : HasOwner x)
    (hy : ¬ HasOwner y) : ∃ e ∈ log, e.act = .release := by
  by_contra hnone
  push Not at hnone
  exact hy (h.keeps hx fun c hc => (hl c hc).hasOwner (hnone c hc)).2

/-- **Calls that are lawful and linked make a life cycle.** -/
theorem Linked.lifeCycle (h : Linked none log x) (hl : ∀ c ∈ log, c.Lawful) : LifeCycle log x where
  linked := h
  lawful := hl
  moves := fun c hc x hx y hy => (hl c hc).moves hx hy
  start := by
    rintro earlier c later input rfl hact
    have hc := hl c (List.mem_append_right _ (List.mem_cons_self ..))
    rw [hc.isStart_iff hact,
      h.at.1.started_iff fun d hd => hl d (List.mem_append_left _ hd)]
    exact ⟨fun hnone d hd he => hnone ⟨d, hd, he⟩, fun hall ⟨d, hd, he⟩ => hall d hd he⟩
  left := fun c hc _ hact => ((hl c hc).left (h.unsettled hl c hc).1 hact).2
  outcome := fun c hc o => (hl c hc).outcome_iff (h.unsettled hl c hc).1 o
  settled := by
    rintro earlier c later o rfl ho
    have hlater : ∀ d ∈ later, d.Lawful ∧ Unsettled d.before := by
      intro d hd
      have hmem := List.mem_append_right earlier (List.mem_cons_of_mem c hd)
      exact ⟨hl d hmem, (h.unsettled hl d hmem).1⟩
    have hkeeps := h.at.2.keeps (P := fun x => outcome? x = some o) ho fun d hd =>
      (hlater d hd).1.settled (hlater d hd).2
    exact ⟨fun d hd => (hkeeps.1 d hd).2, hkeeps.2⟩
  claims := by
    rintro earlier c between d later rfl hc hd
    rw [List.append_assoc, List.cons_append] at h hl
    have hmem : ∀ e ∈ c :: (between ++ d :: later), e.Lawful := fun e he =>
      hl e (List.mem_append_right _ he)
    refine h.at.2.at.1.exists_release (fun e he => hmem e ?_) ?_ ?_
    · exact List.mem_cons_of_mem _ (List.mem_append_left _ he)
    · exact ((hmem c (List.mem_cons_self ..)).claims hc).2
    · refine ((hmem d ?_).claims hd).1
      exact List.mem_cons_of_mem _ (List.mem_append_right _ (List.mem_cons_self ..))

end

namespace World

variable {bodies : Bodies β σ} {log : List (Deed β)} {w : World β σ}

/-- **Every coroutine lives its life cycle**, whatever its body and the bodies of others do and in
whatever order actions claim, release and resume it, from outside or from inside its own resume. -/
theorem calls_lifeCycle {limits : List (Option Number)} {shared : σ}
    (h : Records bodies (initial limits shared) log w) (i : Nat) :
    LifeCycle (calls i log) (w.handles.get? i) := by
  have hattests := Attests.of_records (i := i) h
  have hnone : (initial limits shared : World β σ).handles.get? i = none := rfl
  exact (hnone ▸ hattests.linked : Linked none _ _).lifeCycle hattests.lawful

/-- A body that claims, resumes and releases its own coroutine and returns. -/
def selfish : Bodies Unit Unit where
  resume _ frame _ :=
    .claim ⟨0, "self"⟩ 2 fun _ => .resume ⟨0, "self"⟩ (.value .none) fun _ =>
      .release ⟨0, "self"⟩ (.done (.ok (frame, .ret .none)))
  forgets _ := true

/-- Claims a coroutine, resumes it, and resumes it once more. -/
def useSelfish : Action Unit Unit Unit :=
  .spawn "self" () [] fun c => .claim c 1 fun _ => .resume c .start fun _ =>
    .resume c (.value .none) fun _ => .done (.ok ())

def selfishLog : List (Deed Unit) := (initial [] ()).deeds selfish 2 useSelfish

/-- Between its entry and its leaving stand three calls of its own. -/
theorem selfish_lifeCycle :
    LifeCycle (calls 0 selfishLog) (((initial [] ()).perform selfish 2 useSelfish).2.handles.get? 0) ∧
      (calls 0 selfishLog).map (fun c => c.after.map Handle.status) =
        [some .created, some .created, some .running, some .running, some .running, some .running,
          some .completed, some .completed] :=
  ⟨calls_lifeCycle (.more .refl 2 useSelfish) 0, rfl⟩

end World

end Coroutines
