import Coroutines.Proofs.Suspension.Statements

/-!
# Async functions that are resumed

Every coroutine of an async function starts with its first statement, and every later resume goes on
from the await at which the one before left it: a value is bound to the target of the await and the
next statement follows, an exception ends the function there (`Resumes`).  So the statements of all
resumes, one after the other, are those that the body begins with (`Lived`).
-/

namespace Coroutines

/-- The bindings after an await has brought a value. -/
def Bindings.delivered (locals : Bindings Value) (target : Option String) (v : Value) :
    Bindings Value :=
  match target with
  | some x => locals.set x v
  | none => locals

/-- What a resume of an async function does, with the statements that it carries out. -/
inductive Resumes (p : Program) (depth : Nat) (fn : FunctionDecl) (r : Resumption Body Globals) :
    List Execution → Prop
  /-- The first resume begins with the first statement. -/
  | start {log : List Execution} (hin : r.input = .start) (hpc : r.frame.pc = 0)
      (h : p.runRecorded (p.callValue depth) (World.runner (p.bodies depth) r.fuel)
        ⟨fn.name, r.frame.locals, .async⟩ 0 fn.body r.entered = (log, r.result, r.left)) :
      Resumes p depth fn r log
  /-- A value is bound to the target of the await, and the statement after it is the next. -/
  | value {target : Option String} {operand : Expr} {site : Site} {v : Value} {log : List Execution}
      (hat : fn.body[r.frame.pc]? = some (.await target operand site)) (hin : r.input = .value v)
      (h : p.runRecorded (p.callValue depth) (World.runner (p.bodies depth) r.fuel)
        ⟨fn.name, r.frame.locals.delivered target v, .async⟩ (r.frame.pc + 1)
        (fn.body.drop (r.frame.pc + 1)) r.entered = (log, r.result, r.left)) :
      Resumes p depth fn r log
  /-- An exception is raised at the await, within one frame more. -/
  | throw {target : Option String} {operand : Expr} {site : Site} {record : Record}
      (hat : fn.body[r.frame.pc]? = some (.await target operand site)) (hin : r.input = .throw record)
      (hresult : r.result = .ok (r.frame,
        .raise ⟨record.failure, p.frame fn.name "await" [] site :: record.frames⟩))
      (hleft : r.left = r.entered) : Resumes p depth fn r []

/-- The statements of several resumes, one after the other. -/
def executions (life : List (Resumption Body Globals × List Execution)) : List Execution :=
  life.flatMap Prod.snd

/-- A resume goes on with the frame that another left: it stands at the await that was carried out
last, with the bindings there. -/
structure Restores (t : Resumption Body Globals × List Execution) (r : Resumption Body Globals) :
    Prop where
  input : r.input.isStart = false
  suspended : ∃ target, t.1.result = .ok (r.frame, .await target)
  frame : ∃ e, t.2.getLast? = some e ∧ e.stmt.isAwait = true ∧ r.frame = ⟨e.index, e.locals⟩

/-- What all resumes of one coroutine of an async function did. -/
structure Lived (p : Program) (depth : Nat) (fn : FunctionDecl) (locals : Bindings Value)
    (life : List (Resumption Body Globals × List Execution)) : Prop where
  resumes : ∀ t ∈ life, Resumes p depth fn t.1 t.2
  /-- The first resume finds the bindings of the call. -/
  first : ∀ t ∈ life.head?, t.1.input = .start ∧ t.1.frame = ⟨0, locals⟩
  /-- Every other one finds the frame that the one before left. -/
  restored : life.IsChain fun t t' => Restores t t'.1
  /-- Statements are carried out in the order of the body, each at most once. -/
  inOrder : (executions life).map Execution.placed <+: fn.body.zipIdx
  /-- The body is entered once more than there are awaits, at most. -/
  entered : life.length ≤ 1 + fn.body.countP Stmt.isAwait

namespace Resumes

variable {p : Program} {depth : Nat} {fn : FunctionDecl} {r : Resumption Body Globals}

theorem of_start (hin : r.input = .start) (hpc : r.frame.pc = 0)
    (hp : (p.resumeFunction (p.callValue depth) fn r.frame r.input).perform
      (World.runner (p.bodies depth) r.fuel) r.entered = (r.result, r.left)) :
    ∃ log, Resumes p depth fn r log ∧ Program.Stretch fn.body 0 log r.result := by
  simp only [hin, hpc, Program.resumeFunction, List.drop_zero] at hp
  obtain ⟨log, hlog, hstretch⟩ := Program.exists_record hp
  exact ⟨log, .start hin hpc hlog, hstretch⟩

/-- A coroutine that stands at an await takes every input that is not its first. -/
theorem of_await {target : Option String} {operand : Expr} {site : Site}
    (hat : fn.body[r.frame.pc]? = some (.await target operand site)) (hin : r.input.isStart = false)
    (hp : (p.resumeFunction (p.callValue depth) fn r.frame r.input).perform
      (World.runner (p.bodies depth) r.fuel) r.entered = (r.result, r.left)) :
    ∃ log, Resumes p depth fn r log ∧
      Program.Stretch (fn.body.drop (r.frame.pc + 1)) (r.frame.pc + 1) log r.result := by
  have hawait : Program.awaitAt? fn r.frame.pc = some (target, site) := by
    simp only [Program.awaitAt?, hat]
  cases hi : r.input with
  | start =>
      rw [hi] at hin
      cases hin
  | throw record =>
      simp only [hi, Program.resumeFunction, hawait] at hp
      obtain ⟨hresult, hleft⟩ := Prod.mk.inj hp
      refine ⟨[], .throw hat hi hresult.symm hleft.symm, List.nil_prefix, fun h => ?_⟩
      cases hresult.trans h
  | value v =>
      simp only [hi, Program.resumeFunction, hawait] at hp
      obtain ⟨log, hlog, hstretch⟩ := Program.exists_record hp
      refine ⟨log, .value hat hi ?_, hstretch⟩
      cases target <;> exact hlog

end Resumes

/-! ### One resume after the other -/

section

variable {p : Program} {depth : Nat} {fn : FunctionDecl} {locals : Bindings Value}
  {life : List (Resumption Body Globals × List Execution)} {x : Handle Body}
  {r : Resumption Body Globals} {log : List Execution}

/-- Statements that go on where others ended are, with these, what the body begins with. -/
theorem prefix_zipIdx_append {α : Type} {l : List α} {a b : List (α × Nat)} (ha : a <+: l.zipIdx)
    (hb : b <+: (l.drop a.length).zipIdx a.length) : a ++ b <+: l.zipIdx := by
  have hlength : a.length ≤ l.length := ha.length_le.trans_eq List.length_zipIdx
  have hsplit : l.zipIdx = (l.take a.length).zipIdx ++ (l.drop a.length).zipIdx a.length := by
    conv_lhs => rw [← List.take_append_drop a.length l, List.zipIdx_append]
    rw [List.length_take_of_le hlength, Nat.zero_add]
  rw [hsplit] at ha
  have hfront : a = (l.take a.length).zipIdx := by
    rw [List.prefix_iff_eq_take, List.take_left' (by simp [hlength])] at ha
    exact ha
  rw [hsplit, ← hfront]
  exact (List.prefix_append_right_inj a).mpr hb

theorem executions_concat (life : List (Resumption Body Globals × List Execution))
    (r : Resumption Body Globals) (log : List Execution) :
    executions (life ++ [(r, log)]) = executions life ++ log := by simp [executions]

theorem getLast?_executions {t : Resumption Body Globals × List Execution} {e : Execution}
    (ht : life.getLast? = some t) (he : t.2.getLast? = some e) :
    (executions life).getLast? = some e := by
  obtain ⟨front, rfl⟩ := List.getLast?_eq_some_iff.mp ht
  rw [executions_concat, List.getLast?_append, he]
  rfl

namespace Lived

theorem nil : Lived p depth fn locals [] where
  resumes _ ht := nomatch ht
  first _ ht := nomatch ht
  restored := .nil
  inOrder := List.nil_prefix
  entered := Nat.zero_le _

/-- The statement that was carried out last stands in the body behind all the others. -/
theorem last (h : Lived p depth fn locals life) {e : Execution}
    (he : (executions life).getLast? = some e) :
    fn.body[e.index]? = some e.stmt ∧ (executions life).length = e.index + 1 := by
  obtain ⟨front, hfront⟩ := List.getLast?_eq_some_iff.mp he
  obtain ⟨rest, hrest⟩ := h.inOrder
  have hget : fn.body.zipIdx[front.length]? = some (e.stmt, e.index) := by
    rw [← hrest, hfront]
    simp [Execution.placed]
  rw [List.getElem?_zipIdx, Nat.zero_add] at hget
  obtain ⟨stmt, hstmt, hpair⟩ := Option.map_eq_some_iff.mp hget
  obtain ⟨rfl, hindex⟩ := Prod.mk.inj hpair
  exact ⟨hindex ▸ hstmt, by rw [hfront, List.length_append, hindex]; rfl⟩

/-- The life of a coroutine with one more resume, which goes on where the others have left off. -/
theorem concat (h : Lived p depth fn locals life) (hr : Resumes p depth fn r log)
    (hlink : life = [] ∧ r.input = .start ∧ r.frame = ⟨0, locals⟩ ∨
      ∃ t, life.getLast? = some t ∧ Restores t r)
    (horder : log.map Execution.placed <+:
      (fn.body.drop (executions life).length).zipIdx (executions life).length)
    (hentered : life.length ≤ (executions life).countP (·.stmt.isAwait)) :
    Lived p depth fn locals (life ++ [(r, log)]) where
  resumes t ht := by
    rcases List.mem_append.mp ht with ht | ht
    · exact h.resumes t ht
    · rw [List.mem_singleton.mp ht]
      exact hr
  first t ht := by
    rcases hlink with ⟨rfl, hstart⟩ | ⟨t', ht', -⟩
    · cases ht
      exact hstart
    · rw [List.head?_append_of_ne_nil _ (List.ne_nil_of_mem (List.mem_of_getLast? ht'))] at ht
      exact h.first t ht
  restored := by
    refine List.isChain_append.mpr ⟨h.restored, .singleton _, fun t ht t' ht' => ?_⟩
    cases ht'
    rcases hlink with ⟨rfl, -⟩ | ⟨t₀, ht₀, hrestores⟩
    · cases ht
    · cases ht₀.symm.trans ht
      exact hrestores
  inOrder := by
    rw [executions_concat, List.map_append]
    refine prefix_zipIdx_append h.inOrder ?_
    rwa [List.length_map]
  entered := by
    have hawaits : (executions life).countP (·.stmt.isAwait) ≤ fn.body.countP Stmt.isAwait := by
      have hle := h.inOrder.sublist.countP_le (p := Stmt.isAwait ∘ Prod.fst)
      rwa [List.countP_map, ← List.countP_map (f := Prod.fst), List.zipIdx_map_fst] at hle
    rw [List.length_append, List.length_singleton]
    omega

end Lived

/-- Where the resumes so far have left a coroutine of an async function.  As long as it can be resumed,
each of them carried out an await of its own. -/
structure Placed (fn : FunctionDecl) (locals : Bindings Value)
    (life : List (Resumption Body Globals × List Execution)) (x : Handle Body) : Prop where
  body : x.body = .function fn
  created (h : x.status = .created) : life = [] ∧ x.frame = ⟨0, locals⟩
  suspended (h : x.status = .suspended) : ∃ t e target, life.getLast? = some t ∧
    t.1.result = .ok (x.frame, .await target) ∧ t.2.getLast? = some e ∧ e.stmt.isAwait = true ∧
      x.frame = ⟨e.index, e.locals⟩ ∧ life.length ≤ (executions life).countP (·.stmt.isAwait)

namespace Placed

/-- The row of a coroutine that was made and not resumed. -/
theorem create (name : String) (fn : FunctionDecl) (locals : Bindings Value) :
    Placed fn locals [] (.create name (.function fn) locals) where
  body := rfl
  created _ := ⟨rfl, rfl⟩
  suspended h := nomatch h

/-- Claiming and releasing a coroutine does not move it. -/
theorem owned (h : Placed fn locals life x) (owner : Option Nat) :
    Placed fn locals life { x with owner } := { h with }

/-- Each resume so far has carried out an await if the coroutine takes another input. -/
theorem length_le (h : Placed fn locals life x) {input : Input} (hin : x.refusal? input = none) :
    life.length ≤ (executions life).countP (·.stmt.isAwait) := by
  rcases Handle.refusal?_eq_none_iff.mp hin with ⟨hstatus, -⟩ | ⟨hstatus, -⟩
  · rw [(h.created hstatus).1]
    exact Nat.zero_le _
  · obtain ⟨_, _, _, -, -, -, -, -, hle⟩ := h.suspended hstatus
    exact hle

/-- A resume leaves the coroutine at an await or for good. -/
theorem after (h : Placed fn locals life x) {pc : Nat} {stmts : List Stmt}
    (hin : x.refusal? r.input = none) (hs : Program.Stretch stmts pc log r.result) (forgets : Bool) :
    Placed fn locals (life ++ [(r, log)]) ((x.entered forgets).after r.frame r.result) := by
  have hentered := h.length_le hin
  rcases hr : r.result with (_ | _ | _ | _ | _) | ⟨frame, target | _ | _⟩
  case ok.await =>
    obtain ⟨e, hlast, hawait, rfl⟩ := hs.standing hr
    have hlog : 0 < log.countP (·.stmt.isAwait) :=
      List.countP_pos_iff.mpr ⟨e, List.mem_of_getLast? hlast, hawait⟩
    refine ⟨h.body, nofun, fun _ => ⟨_, e, target, List.getLast?_concat, hr, hlast, hawait, rfl, ?_⟩⟩
    rw [executions_concat, List.countP_append, List.length_append, List.length_singleton]
    omega
  all_goals exact ⟨h.body, nofun, nofun⟩

end Placed

/-- A resume goes on where the resumes before have left off, with the next statement of the body. -/
theorem Lived.next (h : Lived p depth fn locals life) (hx : Placed fn locals life x)
    (hin : x.refusal? r.input = none) (hframe : r.frame = x.frame)
    (hp : (p.resumeFunction (p.callValue depth) fn r.frame r.input).perform
      (World.runner (p.bodies depth) r.fuel) r.entered = (r.result, r.left)) :
    ∃ log, Resumes p depth fn r log ∧ Program.Stretch
      (fn.body.drop (executions life).length) (executions life).length log r.result ∧
      (life = [] ∧ r.input = .start ∧ r.frame = ⟨0, locals⟩ ∨
        ∃ t, life.getLast? = some t ∧ Restores t r) := by
  rcases Handle.refusal?_eq_none_iff.mp hin with ⟨hstatus, hstart⟩ | ⟨hstatus, hlater⟩
  · obtain ⟨rfl, hfirst⟩ := hx.created hstatus
    have hinput : r.input = .start := by
      cases hi : r.input <;> simp [hi, Input.isStart] at hstart ⊢
    obtain ⟨log, hr, hs⟩ := Resumes.of_start hinput (by rw [hframe, hfirst]) hp
    exact ⟨log, hr, hs, .inl ⟨rfl, hinput, hframe.trans hfirst⟩⟩
  · obtain ⟨t, e, target, ht, hresult, he, hawait, hplace, -⟩ := hx.suspended hstatus
    obtain ⟨hat, hlength⟩ := h.last (getLast?_executions ht he)
    obtain ⟨_, _, _, hstmt⟩ : ∃ target operand site, e.stmt = .await target operand site := by
      cases hstmt : e.stmt <;> simp [hstmt, Stmt.isAwait] at hawait ⊢
    obtain ⟨log, hr, hs⟩ := Resumes.of_await (by rw [hframe, hplace, hat, hstmt]) hlater hp
    have hpc : r.frame.pc + 1 = (executions life).length := by rw [hframe, hplace, hlength]
    rw [hpc] at hs
    exact ⟨log, hr, hs, .inr ⟨t, ht, hlater, ⟨target, by rw [hframe, hresult]⟩, e, he, hawait,
      hframe.trans hplace⟩⟩

/-- **Whatever inputs a coroutine of an async function is given**, it carries out the statements of the
function in order, each at most once, and goes on each time where it was left. -/
theorem Life.lived {name : String} {log : List (Resumption Body Globals)}
    (h : Life (p.bodies depth) (.create name (.function fn) locals) log x) :
    ∃ life, life.map Prod.fst = log ∧ Lived p depth fn locals life ∧ Placed fn locals life x := by
  induction h with
  | still => exact ⟨[], rfl, .nil, .create name fn locals⟩
  | owned _ owner ih =>
      obtain ⟨life, hlog, hlived, hplaced⟩ := ih
      exact ⟨life, hlog, hlived, hplaced.owned owner⟩
  | @resume y _ _ r hin hbody hframe hp forgets ih =>
      obtain ⟨life, rfl, hlived, hplaced⟩ := ih
      rw [hbody, hplaced.body] at hp
      obtain ⟨executed, hr, hs, hlink⟩ := hlived.next hplaced hin hframe hp
      exact ⟨life ++ [(r, executed)], by simp,
        hlived.concat hr hlink hs.inOrder (hplaced.length_le hin), hplaced.after hin hs forgets⟩

end

/-! ### Calls of async functions -/

/-- **Suspension restores the state of an async function exactly, and no code runs twice.**  A call
makes a coroutine and carries out no statement.  In every execution from there on, with whatever inputs
the coroutine is resumed and by whom, the statements of all its resumes are those that the body begins
with, in order, each carried out once; a resume goes on at the await where the one before left it, with
the bindings it had there, binds a value to its target or raises an exception within one frame more, and
the body is not entered more often than its awaits allow. -/
theorem Program.suspension_exact (p : Program) (depth : Nat) (fn : FunctionDecl)
    (hasync : fn.isAsync = true) (args : List Value) (kwargs : Bindings Value)
    (runner : Runner Body Globals) (w : World Body Globals) :
    (∃ failure, fn.bindParams args kwargs = .error failure ∧
      (p.callFunction (p.callValue depth) fn args kwargs).perform runner w =
        (.error (.raise failure), w)) ∨
    ∃ locals, fn.bindParams args kwargs = .ok locals ∧
      (p.callFunction (p.callValue depth) fn args kwargs).perform runner w =
        (.ok (.coroutine (w.spawn fn.name (.function fn) locals).1),
          (w.spawn fn.name (.function fn) locals).2) ∧
      (∀ (α : Type) (a : Script α) (fuel : Nat) (v : World Body Globals), ∃ log,
        v.Chronicle (p.bodies depth) log (a.perform (World.runner (p.bodies depth) fuel) v).2) ∧
      ∀ log w', (w.spawn fn.name (.function fn) locals).2.Chronicle (p.bodies depth) log w' →
        ∃ life, life.map Prod.fst = log.filter (·.coroutine.id = w.handles.size) ∧
          Lived p depth fn locals life := by
  cases hbind : fn.bindParams args kwargs with
  | error failure =>
      refine .inl ⟨failure, rfl, ?_⟩
      simp only [callFunction, hbind]
      rfl
  | ok locals =>
      refine .inr ⟨locals, rfl, ?_, fun α a fuel v => World.Passes.perform (p.bodies depth) fuel a v,
        fun log w' h => ?_⟩
      · simp only [callFunction, hbind, hasync]
        rfl
      · have hrow : (w.spawn fn.name (.function fn) locals).2.handles.get? w.handles.size =
            some (.create fn.name (.function fn) locals) := by
          simp [World.spawn, Table.get?_push]
        obtain ⟨x, -, hlife⟩ := Life.of_chronicle h hrow
        obtain ⟨life, hlog, hlived, -⟩ := hlife.lived
        exact ⟨life, hlog, hlived⟩

namespace Program

/-- An async function that awaits its argument and returns the result. -/
def awaiter : FunctionDecl where
  name := "main"
  isAsync := true
  params := ["t"]
  body := [.await (some "x") (.name "t" none) ⟨.ofNat 2, .ofNat 8, .ofNat 15⟩,
    .ret (some (.name "x" none)) none]

def awaiting : Program := .ofUnit ⟨"main.py", "async def main(t):\n    x = await t\n    return x",
  none, [awaiter], []⟩

def idle : World Body Globals := .initial [] ⟨[], ""⟩

/-- The resume of the only coroutine with an input. -/
def resumption (frame : Frame) (input : Input) (w : World Body Globals) :
    Resumption Body Globals :=
  let body := (awaiting.bodies 0).resume (.function awaiter) frame input
  let entered := w.modifyHandle ⟨0, "main"⟩ (·.entered true)
  let ended := body.perform (World.runner (awaiting.bodies 0) 0) entered
  ⟨⟨0, "main"⟩, .function awaiter, frame, input, 0, entered, ended.1, ended.2⟩

theorem awaiter_restored : awaiter.isAsync = true ∧ ∃ log w' life,
    (idle.spawn "main" (.function awaiter) [("t", .coroutine ⟨1, "leaf"⟩)]).2.Chronicle
      (awaiting.bodies 0) log w' ∧
    log.map (·.input.kind) = ["start", "value"] ∧ life.map Prod.fst = log ∧
    Lived awaiting 0 awaiter [("t", .coroutine ⟨1, "leaf"⟩)] life := by
  have hawaiter : awaiter.isAsync = true := rfl
  let called := (idle.spawn "main" (.function awaiter) [("t", .coroutine ⟨1, "leaf"⟩)]).2
  let first := resumption ⟨0, [("t", .coroutine ⟨1, "leaf"⟩)]⟩ .start called
  let between := (first.left.leave first.coroutine first.frame first.result).2
  let second := resumption ⟨0, [("t", .coroutine ⟨1, "leaf"⟩)]⟩ (.value (.str "done")) between
  have hfirst : called.Chronicle (awaiting.bodies 0) ([] ++ [first]) between :=
    .resume rfl rfl rfl rfl rfl rfl (.arrange (.rest rfl))
  have hsecond : between.Chronicle (awaiting.bodies 0) ([] ++ [second]) _ :=
    .resume rfl rfl rfl rfl rfl rfl (.arrange (.rest rfl))
  rcases suspension_exact awaiting 0 awaiter hawaiter [.coroutine ⟨1, "leaf"⟩] []
      (World.runner (awaiting.bodies 0) 0) idle with ⟨_, h, -⟩ | ⟨locals, h, -, -, hlived⟩
  · cases h
  · cases h
    obtain ⟨life, hlife, hlived⟩ := hlived _ _ (hfirst.trans hsecond)
    exact ⟨hawaiter, _, _, life, hfirst.trans hsecond, rfl, hlife, hlived⟩

end Program

end Coroutines
