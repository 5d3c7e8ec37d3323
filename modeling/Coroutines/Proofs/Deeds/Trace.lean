import Coroutines.Proofs.Activity
import Coroutines.Proofs.Deeds.Log
import Coroutines.Proofs.Suspension.Lives
import Mathlib.Algebra.Ring.Nat

/-!
# What the trace tells of the log

The events that a run appends to the trace agree in number with the deeds of its log: a join for each group
that is started, a spawn for each member of one, a suspension for each coroutine that is awaited
(`Tallies`).  Where every scheduler is active no run can be started, so what bodies do within a run appends
nothing (`World.Quiet`), and the events of a run are those of its own turns.
-/

namespace Coroutines

variable {β σ : Type}

/-! ### Deeds and events by kind -/

namespace Deed

def isCall : Deed β → Bool
  | .call _ => true
  | _ => false

def isBegin : Deed β → Bool
  | .begin _ _ => true
  | _ => false

/-- A coroutine was resumed by a run. -/
def isTurn : Deed β → Bool
  | .turn _ _ _ => true
  | _ => false

/-- A coroutine was resumed by a run and awaits a coroutine. -/
def isAwait : Deed β → Bool
  | .turn _ _ (.await (.coroutine _)) => true
  | _ => false

def isJoin : Deed β → Bool
  | .join _ _ => true
  | _ => false

/-- The number of members that are started. -/
def members : Deed β → Nat
  | .join _ size => size
  | _ => 0

def isConclude : Deed β → Bool
  | .conclude _ _ => true
  | _ => false

end Deed

namespace Event

def isJoin : Event → Bool
  | .joinStart _ _ => true
  | _ => false

def isSpawn : Event → Bool
  | .taskSpawn _ _ _ => true
  | _ => false

def isSuspension : Event → Bool
  | .taskSuspend _ _ => true
  | _ => false

/-- The event is none that a log accounts for. -/
def isOther (e : Event) : Bool := !e.isJoin && !e.isSpawn && !e.isSuspension

end Event

/-- Events agree in number with the deeds of a log. -/
structure Tallies (log : List (Deed β)) (es : List Event) : Prop where
  joins : es.countP Event.isJoin = log.countP Deed.isJoin
  spawned : es.countP Event.isSpawn = (log.map Deed.members).sum
  suspensions : es.countP Event.isSuspension = log.countP Deed.isAwait

namespace Tallies

variable {log log' : List (Deed β)} {es es' : List Event}

theorem append (h : Tallies log es) (h' : Tallies log' es') : Tallies (log ++ log') (es ++ es') where
  joins := by rw [List.countP_append, List.countP_append, h.joins, h'.joins]
  spawned := by
    rw [List.countP_append, List.map_append, List.sum_append, h.spawned, h'.spawned]
  suspensions := by rw [List.countP_append, List.countP_append, h.suspensions, h'.suspensions]

/-- Calls need no events. -/
theorem calls {log : List (Deed β)} (h : ∀ d ∈ log, d.isCall = true) : Tallies log [] := by
  induction log with
  | nil => exact ⟨rfl, rfl, rfl⟩
  | cons d log ih =>
    have hcall : Tallies [d] [] := by
      have := h d (List.mem_cons_self ..)
      cases d with
      | call c => exact ⟨rfl, rfl, rfl⟩
      | _ => cases this
    exact hcall.append (ih fun e he => h e (List.mem_cons_of_mem _ he))

/-- There may be events of other kinds. -/
theorem others {es : List Event} (h : ∀ e ∈ es, e.isOther = true) : Tallies ([] : List (Deed β)) es := by
  induction es with
  | nil => exact ⟨rfl, rfl, rfl⟩
  | cons e es ih =>
    have hother : Tallies ([] : List (Deed β)) [e] := by
      have := h e (List.mem_cons_self ..)
      cases e with
      | taskSpawn | taskSuspend | joinStart => cases this
      | _ => exact ⟨rfl, rfl, rfl⟩
    exact hother.append (ih fun e he => h e (List.mem_cons_of_mem _ he))

/-- A group that is started is a join and a spawn for each member. -/
theorem join (s task size : Nat) {es : List Event}
    (h : ∀ e ∈ es, ∃ id index name, e = .taskSpawn id index name) :
    Tallies [(.join s es.length : Deed β)] (.joinStart task size :: es) := by
  have hnone : ∀ p : Event → Bool, (∀ id index name, p (.taskSpawn id index name) = false) →
      es.countP p = 0 := by
    intro p hp
    refine List.countP_eq_zero.mpr fun e he => ?_
    obtain ⟨id, index, name, rfl⟩ := h e he
    exact Bool.not_eq_true _ ▸ hp id index name
  have hall : es.countP Event.isSpawn = es.length := by
    refine List.countP_eq_length.mpr fun e he => ?_
    obtain ⟨id, index, name, rfl⟩ := h e he
    rfl
  refine ⟨?_, ?_, ?_⟩
  · rw [List.countP_cons, hnone Event.isJoin fun _ _ _ => rfl]
    rfl
  · rw [List.countP_cons, hall]
    rfl
  · rw [List.countP_cons, hnone Event.isSuspension fun _ _ _ => rfl]
    rfl

end Tallies

namespace World

variable {w w' w'' v v' : World β σ} {log log' : List (Deed β)} {es es' : List Event}

/-- All events that were reported, in order. -/
def story (w : World β σ) : List Event := w.trace.toList.map Prod.snd

theorem story_emit (w : World β σ) (s : Nat) (e : Event) : (w.emit s e).story = w.story ++ [e] := by
  simp [story, emit]

/-- What is reported on the way to another world agrees with the deeds on the way, which are none but
those within a run. -/
structure Inside (w : World β σ) (log : List (Deed β)) (w' : World β σ) : Prop where
  story : ∃ es, w'.story = w.story ++ es ∧ Tallies log es
  inside : ∀ d ∈ log, d.isBegin = false ∧ d.isConclude = false

namespace Inside

theorem append (h : Inside w log w') (h' : Inside w' log' w'') : Inside w (log ++ log') w'' where
  story := by
    obtain ⟨es, hs, ht⟩ := h.story
    obtain ⟨es', hs', ht'⟩ := h'.story
    exact ⟨es ++ es', by rw [hs', hs, List.append_assoc], ht.append ht'⟩
  inside := fun d hd => (List.mem_append.mp hd).elim (h.inside d) (h'.inside d)

/-- Only the trace matters. -/
theorem congr (h : Inside w log w') (e : v.trace = w.trace) (e' : v'.trace = w'.trace) :
    Inside v log v' where
  story := by rw [World.story, World.story, e, e']; exact h.story
  inside := h.inside

theorem calls (h : ∀ d ∈ log, d.isCall = true) (hs : w'.trace = w.trace) : Inside w log w' where
  story := ⟨[], by rw [World.story, World.story, hs, List.append_nil], .calls h⟩
  inside := fun d hd => by
    have := h d hd
    cases d with
    | call c => exact ⟨rfl, rfl⟩
    | _ => cases this

theorem refl (w : World β σ) : Inside w [] w := calls (fun _ h => absurd h List.not_mem_nil) rfl

/-- One call, which reports nothing. -/
theorem call (c : CoroutineRef) (act : Act) (v' : World β σ) (hs : w'.trace = w.trace) :
    Inside w [v.callDeed c act v'] w' :=
  calls (fun _ hd => List.mem_singleton.mp hd ▸ rfl) hs

/-- An event of another kind. -/
theorem emit (w : World β σ) (s : Nat) {e : Event} (he : e.isOther = true) :
    Inside w [] (w.emit s e) where
  story := ⟨[e], story_emit w s e, .others fun _ h => List.mem_singleton.mp h ▸ he⟩
  inside := fun _ h => absurd h List.not_mem_nil

/-! ### Steps of a run -/

theorem trace_claim (w : World β σ) (c : CoroutineRef) (task : Nat) :
    (w.claim c task).2.trace = w.trace := by
  unfold World.claim
  split
  · rfl
  · split <;> rfl

theorem closeGroup (w : World β σ) (s : Nat) (g : GroupRef) :
    Inside w [] (w.closeGroup s g).2 := by
  unfold World.closeGroup
  split
  · unfold settleGroup
    split
    · exact refl w
    · have hsettle : (w.settle g).2.trace = w.trace := by
        unfold settle
        split <;> rfl
      split
      · next e =>
        rw [e] at hsettle
        exact (refl w).congr rfl hsettle
      · next e =>
        rw [e] at hsettle
        exact (emit _ s rfl).congr hsettle.symm rfl
  · exact refl w

theorem finish (w : World β σ) (s t : Nat) (outcome : Outcome) :
    Inside w [] (w.finish s t outcome).2 := by
  simp only [World.finish]
  split
  · exact (refl w).congr rfl rfl
  · next x _ =>
    have hend : Inside w [] ((w.modifyTask t (·.ended outcome)).emit s
        (.taskEnd x.id x.index outcome.isOk)) := (emit _ s rfl).congr rfl rfl
    split
    · exact hend
    · exact hend.append (closeGroup ..)

theorem unwind (w : World β σ) (s t : Nat) (top : CoroutineRef) (outcome : Outcome) :
    Inside w [] (w.unwind s t top outcome).2 := by
  have hfinish := finish ((w.modifyTask t fun x => { x with chain := x.chain.tail }).release top) s t
    outcome
  simp only [World.unwind]
  split
  · exact hfinish.congr rfl rfl
  · exact (refl w).congr rfl rfl

/-- A member of a group is reported as a new task. -/
theorem story_startMember (w : World β σ) (s : Nat) (g : GroupRef) (index : Nat) (c : CoroutineRef) :
    ∃ id, (w.startMember s g index c).story = w.story ++ [.taskSpawn id index c.name] := by
  have hadd : ∃ id, (w.addMember s g index c).2.story = w.story ++ [.taskSpawn id index c.name] := by
    simp only [World.addMember]
    exact ⟨_, story_emit ..⟩
  obtain ⟨id, hadd⟩ := hadd
  have hclaim := trace_claim (w.addMember s g index c).2 c
    ((w.addMember s g index c).2.taskId (w.addMember s g index c).1)
  refine ⟨id, ?_⟩
  rw [← hadd, World.story, World.story, ← hclaim]
  simp only [World.startMember]
  split <;>
    · next e =>
      rw [e]
      rfl

theorem story_startMembers (w : World β σ) (s : Nat) (g : GroupRef) (index : Nat)
    (cs : List CoroutineRef) : ∃ es, (w.startMembers s g index cs).story = w.story ++ es ∧
      es.length = cs.length ∧ ∀ e ∈ es, ∃ id index name, e = .taskSpawn id index name := by
  induction cs generalizing w index with
  | nil => exact ⟨[], (List.append_nil _).symm, rfl, fun _ h => absurd h List.not_mem_nil⟩
  | cons c cs ih =>
    obtain ⟨id, hfirst⟩ := story_startMember w s g index c
    obtain ⟨es, hs, hlength, hspawn⟩ := ih (w.startMember s g index c) (index + 1)
    refine ⟨.taskSpawn id index c.name :: es, ?_, congrArg (· + 1) hlength, fun e he => ?_⟩
    · rw [World.startMembers, hs, hfirst, List.append_assoc]
      rfl
    · rcases List.mem_cons.mp he with rfl | he
      · exact ⟨id, index, c.name, rfl⟩
      · exact hspawn e he

theorem isCall_memberDeeds (w : World β σ) (s : Nat) (g : GroupRef) (index : Nat)
    (cs : List CoroutineRef) : ∀ d ∈ w.memberDeeds s g index cs, d.isCall = true := by
  induction cs generalizing w index with
  | nil => exact fun _ h => absurd h List.not_mem_nil
  | cons c cs ih =>
    intro d hd
    rcases List.mem_cons.mp hd with rfl | hd
    · rfl
    · exact ih _ _ d hd

/-- A group that is started is reported with its members. -/
theorem startGroup (w : World β σ) (s parent : Nat) (g : GroupRef) :
    Inside w (w.groupDeeds s parent g) (w.startGroup s parent g).2 := by
  simp only [World.startGroup, groupDeeds]
  generalize hv : (w.modifyGroup g fun x => { x with awaitedBy := some parent }) = v
  have htrace : v.story = w.story := hv ▸ rfl
  generalize hj : Event.joinStart (v.taskId parent) (v.groupSize g) = join
  generalize hcs : (((v.emit s join).groups.get? g.id).map Group.handles).getD [] = cs
  have hsize : (v.emit s join).groupSize g = cs.length := by
    rw [← hcs, groupSize]
    cases (v.emit s join).groups.get? g.id <;> rfl
  obtain ⟨es, hs, hlength, hspawn⟩ := story_startMembers (v.emit s join) s g 0 cs
  rw [hsize, ← hlength]
  -- the members' calls report nothing more
  have hopened : Inside w [.join s es.length] ((v.emit s join).startMembers s g 0 cs) := by
    refine ⟨⟨join :: es, ?_, hj ▸ .join s _ _ hspawn⟩, fun d hd => ?_⟩
    · rw [hs, story_emit, htrace, List.append_assoc]
      rfl
    · exact List.mem_singleton.mp hd ▸ ⟨rfl, rfl⟩
  rw [← List.singleton_append, ← List.append_nil (_ ++ _)]
  exact (hopened.append (calls (isCall_memberDeeds (v.emit s join) s g 0 cs) rfl)).append
    (closeGroup _ s g)

/-- The events of a turn are those of the step that it ends with. -/
theorem absorb (w : World β σ) (s t : Nat) (top : CoroutineRef) (step : Step) :
    Inside w (.turn s top step :: w.absorbDeeds s t top step) (w.absorb s t top step).2 := by
  have hturn : (Deed.turn s top step : Deed β).isAwait = false → Inside w [.turn s top step] w := by
    intro h
    refine ⟨⟨[], (List.append_nil _).symm, rfl, rfl, ?_⟩, fun d hd => ?_⟩
    · rw [List.countP_cons, h]
      rfl
    · exact List.mem_singleton.mp hd ▸ ⟨rfl, rfl⟩
  cases step with
  | await target =>
    cases target with
    | coroutine c =>
      have hclaim := trace_claim (w.modifyTask t fun x => { x with state := .suspended }) c
        ((w.modifyTask t fun x => { x with state := .suspended }).taskId t)
      have hsuspended : ∃ id, (w.absorb s t top (.await (.coroutine c))).2.story =
          w.story ++ [.taskSuspend id c.name] := by
        refine ⟨_, (story_emit _ s _).trans (congrArg (· ++ _) ?_)⟩
        exact congrArg (fun trace => trace.toList.map Prod.snd) hclaim
      obtain ⟨id, hs⟩ := hsuspended
      have hawait : Inside w [.turn s top (.await (.coroutine c))]
          (w.absorb s t top (.await (.coroutine c))).2 :=
        ⟨⟨_, hs, rfl, rfl, rfl⟩, fun d hd => List.mem_singleton.mp hd ▸ ⟨rfl, rfl⟩⟩
      exact hawait.append (call c _ _ rfl)
    | group g =>
      refine (hturn rfl).append ?_
      simp only [suspendDeeds, World.absorb, World.suspend]
      split
      · exact (refl w).congr rfl rfl
      · exact (startGroup _ s t g).congr rfl rfl
  | ret v =>
    exact (hturn rfl).append ((call top _ _ rfl).append (unwind w s t top (.ok v)))
  | raise r =>
    exact (hturn rfl).append ((call top _ _ rfl).append (unwind w s t top (.error r)))

end Inside

/-! ### What bodies do during a run -/

/-- No scheduler can start a run. -/
def Busy (w : World β σ) : Prop := ∀ s, w.isActive s = true

theorem Busy.of_schedulers (h : w.Busy) (e : w'.schedulers = w.schedulers) : w'.Busy := by
  intro s
  rw [isActive, e]
  exact h s

/-- Nothing is reported and no scheduler is touched on the way to another world; what is done there are
calls. -/
structure Quiet (w : World β σ) (log : List (Deed β)) (w' : World β σ) : Prop where
  trace : w'.trace = w.trace
  schedulers : w'.schedulers = w.schedulers
  calls : ∀ d ∈ log, d.isCall = true

namespace Quiet

theorem append (h : Quiet w log w') (h' : Quiet w' log' w'') : Quiet w (log ++ log') w'' where
  trace := h'.trace.trans h.trace
  schedulers := h'.schedulers.trans h.schedulers
  calls := fun d hd => (List.mem_append.mp hd).elim (h.calls d) (h'.calls d)

theorem refl (w : World β σ) : Quiet w [] w := ⟨rfl, rfl, fun _ h => absurd h List.not_mem_nil⟩

theorem call (w : World β σ) (c : CoroutineRef) (act : Act) {w' : World β σ} (ht : w'.trace = w.trace)
    (hs : w'.schedulers = w.schedulers) : Quiet w [w.callDeed c act w'] w' :=
  ⟨ht, hs, fun _ hd => List.mem_singleton.mp hd ▸ rfl⟩

theorem claim (w : World β σ) (c : CoroutineRef) (task : Nat) :
    Quiet w [w.claimDeed c task] (w.claim c task).2 := by
  refine call w c _ (Inside.trace_claim w c task) ?_
  unfold World.claim
  split
  · rfl
  · split <;> rfl

theorem perform {α : Type} {runner : Runner β σ} {watch : Watch β σ}
    (hrun : ∀ s c (w : World β σ), w.Busy → Quiet w (watch.run s c w) (runner.run s c w).2)
    (hres : ∀ c input (w : World β σ), w.Busy →
      Quiet w (watch.resume c input w) (runner.resume c input w).2)
    (a : Action β σ α) (w : World β σ) (hb : w.Busy) :
    Quiet w (a.deeds runner watch w) (a.perform runner w).2 := by
  induction a generalizing w with
  | done result => exact refl w
  | read next ih => exact ih _ w hb
  | modify f next ih =>
    have h := ih { w with shared := f w.shared } hb
    exact ⟨h.trace, h.schedulers, h.calls⟩
  | identity next ih =>
    have h := ih w.identity.1 w.identity.2 hb
    exact ⟨h.trace, h.schedulers, h.calls⟩
  | spawn name body locals next ih =>
    have hmade : Quiet w [w.makeDeed name body locals] (w.spawn name body locals).2 :=
      call w _ _ rfl rfl
    exact hmade.append (ih _ _ hb)
  | joinAll s members re next ih =>
    simp only [Action.deeds, Action.perform, hb s, if_true]
    have h := ih (.ok (w.newGroup members re).1) (w.newGroup members re).2 hb
    exact ⟨h.trace, h.schedulers, h.calls⟩
  | run s c next ih =>
    have h := hrun s c w hb
    simp only [Action.deeds, Action.perform]
    rcases splitScript (runner.run s c w).1 with e | r
    · exact h
    · exact h.append (ih r _ (hb.of_schedulers h.schedulers))
  | resume c input next ih =>
    have h := hres c input w hb
    simp only [Action.deeds, Action.perform]
    rcases splitScript (runner.resume c input w).1 with e | r
    · exact h
    · exact h.append (ih r _ (hb.of_schedulers h.schedulers))
  | claim c task next ih =>
    have h := claim w c task
    exact h.append (ih _ _ (hb.of_schedulers h.schedulers))
  | release c next ih =>
    have h : Quiet w [w.releaseDeed c] (w.release c) := call w c _ rfl rfl
    exact h.append (ih _ hb)

/-- No run starts. -/
theorem runWith {resume : CoroutineRef → Input → World β σ → Except Abort Step × World β σ}
    {watch : CoroutineRef → Input → World β σ → List (Deed β)} (hb : w.Busy) (fuel s : Nat)
    (c : CoroutineRef) :
    Quiet w (w.runDeeds resume watch fuel s c) (w.runWith resume fuel s c).2 := by
  simp only [World.runWith, runDeeds, World.start, startDeeds, hb s, if_true]
  exact refl w

/-- **While no scheduler is idle, resumes report nothing**, by induction on how deep bodies may nest. -/
theorem resume (bodies : Bodies β σ) (fuel : Nat) (c : CoroutineRef) (input : Input)
    (w : World β σ) (hb : w.Busy) :
    Quiet w (resumeDeeds bodies fuel c input w) (World.resume bodies fuel c input w).2 := by
  induction fuel generalizing c input w with
  | zero => exact refl w
  | succ fuel ih =>
    rw [resume_succ, World.resumeWith, resumeDeeds]
    rcases he : w.enter bodies c input with ⟨reason | ⟨frame, action⟩, w₁⟩
    · obtain rfl := enter_eq_error he
      exact call w₁ c _ rfl rfl
    · obtain ⟨x, -, -, rfl, -, forgets, rfl⟩ := enter_eq_ok he
      have henter : Quiet w [w.callDeed c (.enter input) (w.modifyHandle c (·.entered forgets))]
          (w.modifyHandle c (·.entered forgets)) := call w c _ rfl rfl
      have hbody : Quiet (w.modifyHandle c (·.entered forgets))
          (action.deeds (runner bodies fuel) (watch bodies fuel) _)
          (action.perform (runner bodies fuel) _).2 :=
        perform (fun s c w hb => runWith hb fuel s c) ih action _ hb
      have hleave : ∀ (w : World β σ) (result : Except Abort (Frame × Step)),
          Quiet w [w.callDeed c (.leave result) (w.leave c x.frame result).2]
            (w.leave c x.frame result).2 := by
        intro w result
        rw [leave_snd]
        exact call w c _ rfl rfl
      exact (henter.append hbody).append (hleave _ _)

end Quiet

end World

end Coroutines
