import Coroutines.Proofs.Erasure.Awaits

/-!
# Async functions and the plain ones that are left of them

A chain of awaits is a nest of calls: the run of an async function comes to its end as the erased
function does, in the same state, and with other bounds on the way.  Forwards, whatever a run comes to
within a number of steps the erased function comes to at a depth that covers the calls and the steps;
backwards, what the erased function comes to at a depth a run comes to in some number of steps.
-/

namespace Coroutines

namespace CompiledUnit

/-- The program of a unit. -/
abbrev program (unit : CompiledUnit) : Program := Program.ofUnit unit

/-- The program of the erased unit. -/
abbrev erased (unit : CompiledUnit) : Program := Program.ofUnit unit.erase

/-- Statements of an async function, as its coroutine carries them out. -/
def asyncBody (unit : CompiledUnit) (depth : Nat) (fn : FunctionDecl) (locals : Bindings Value)
    (pc : Nat) (stmts : List Stmt) : Script (Frame × Step) :=
  unit.program.runAsync (unit.program.callValue depth) ⟨fn.name, locals, .async⟩ pc stmts

/-- What is left of statements of an async function. -/
def erasedBody (unit : CompiledUnit) (depth : Nat) (fn : FunctionDecl) (locals : Bindings Value)
    (stmts : List Stmt) : Script Value :=
  unit.erased.runBody (unit.erased.callValue depth) ⟨fn.name, locals, .sync⟩ (stmts.map Stmt.erase)

/-- How runs resume the coroutines of a unit. -/
def resumption (unit : CompiledUnit) (depth : Nat) (runner : Runner Body Globals) :
    CoroutineRef → Input → World Body Globals → Except Abort Step × World Body Globals :=
  World.resumeWith (unit.program.bodies depth) (Action.perform runner)

end CompiledUnit

/-- How work without coroutines ends: the result and the state. -/
abbrev Ending (α : Type) := Except Abort α × Globals × Nat

/-- Script work that makes no coroutine comes to an end that erasure keeps. -/
structure Yields (unit : CompiledUnit) (a : Script Value) (st : Globals × Nat)
    (e : Ending Value) : Prop where
  exec : a.exec st = some e
  tame : unit.TameGlobals e.2.1
  value : ∀ v, e.1 = .ok v → v.Known unit.Keeps

theorem Yields.of_leads {unit : CompiledUnit} {a b : Script Value} {st st' : Globals × Nat}
    {e : Ending Value} (h : Yields unit b st' e) (hl : Action.Leads a st b st') :
    Yields unit a st e := ⟨hl.exec.trans h.exec, h.tame, h.value⟩

/-- A run goes on after the end of the coroutine at the head of its chain, which is the one given; the
coroutines of the world before are as they were. -/
structure Reaches (resume : CoroutineRef → Input → World Body Globals →
    Except Abort Step × World Body Globals) (t : Nat) (c : CoroutineRef) (rest : List CoroutineRef)
    (w : World Body Globals) (m : Nat) (e : Ending Value)
    (u : Except Abort Unit × World Body Globals) (r : Except Abort Value)
    (w' : World Body Globals) : Prop where
  run : u = World.settled resume t c m r w'
  same : SameEnd r e.1
  store : w'.store = e.2
  spares : World.SparesOthers c w w'
  idles : ∃ chain, w'.Alone t [] chain .start none
  alone : ∀ outcome, splitScript r = .ok outcome → w'.Alone t [] (c :: rest) .start none

section

variable {unit : CompiledUnit} {resume : CoroutineRef → Input → World Body Globals →
    Except Abort Step × World Body Globals} {t m : Nat} {c : CoroutineRef}
  {rest : List CoroutineRef} {w : World Body Globals} {e : Ending Value}
  {u : Except Abort Unit × World Body Globals}

/-- Work that ends a body without another await. -/
theorem World.Alone.reaches (resume : CoroutineRef → Input → World Body Globals →
      Except Abort Step × World Body Globals) (runner : Runner Body Globals) (h : w.Alone t [] (c :: rest) .start none)
    {a : Script (Frame × Step)} {x : Except Abort (Frame × Step)} {r r' : Except Abort Value}
    {st : Globals × Nat} (hl : Action.Leads a w.store (.done x) st) (hx : World.Finishes x r)
    (hs : SameEnd r r') (frame : Frame) (m : Nat) :
    ∃ w', Reaches resume t c rest w m (r', st)
      (World.proceed resume t c frame m (a.perform runner w)) r w' := by
  obtain ⟨w', hw', hspares, hstore, hrun⟩ :=
    (h.restore st).proceed_finishes resume hx frame
  refine ⟨w', ?_, hs, hstore, hspares, ⟨_, hw'⟩, fun _ _ => hw'⟩
  rw [hl.perform]
  exact hrun m

/-- From a later world of the same run on. -/
theorem Reaches.later {w' w'' : World Body Globals} {r : Except Abort Value}
    (h : Reaches resume t c rest w' m e u r w'') (hs : World.SparesOthers c w w') :
    Reaches resume t c rest w m e u r w'' :=
  ⟨h.run, h.same, h.store, hs.trans h.spares, h.idles, h.alone⟩

theorem Reaches.restore {st : Globals × Nat} {r : Except Abort Value} {w' : World Body Globals}
    (h : Reaches resume t c rest (w.restore st) m e u r w') : Reaches resume t c rest w m e u r w' :=
  h.later (.of_eq rfl)

end

/-! ### An await, on both sides -/

/-- The bindings after an await of the target came to a value. -/
def Bindings.awaited (b : Bindings Value) (target : Option String) (v : Value) : Bindings Value :=
  match target with
  | some x => b.set x v
  | none => b

theorem Scope.awaited_mk (name : String) (locals : Bindings Value) (mode : Mode)
    (target : Option String) (v : Value) :
    (⟨name, locals, mode⟩ : Scope).awaited target v = ⟨name, locals.awaited target v, mode⟩ := by
  cases target <;> rfl

theorem CompiledUnit.Tame.awaited {unit : CompiledUnit} {b : Bindings Value} (h : unit.Tame b)
    {target : Option String} (ht : ∀ n, target = some n → ¬unit.Reserved n) {v : Value}
    (hv : v.Known unit.Keeps) : unit.Tame (b.awaited target v) := by
  cases target with
  | none => exact h
  | some x => exact h.set (ht x rfl) hv

/-- An await of a call under the name of an async function, in a function of the unit. -/
structure AwaitedCall (unit : CompiledUnit) (s : Stmt) (target : Option String) (decl : FunctionDecl)
    (own : Option Site) (args : List Expr) (keywords : Option (List (String × Expr)))
    (inner outer : Site) : Prop where
  stmt : s = .await target (.call (.name decl.name own) args keywords inner) outer
  starts : (Expr.call (.name decl.name own) args keywords inner).starts unit.asyncNames false = true
  target : ∀ n, target = some n → ¬unit.Reserved n
  mem : decl ∈ unit.functions
  async : decl.isAsync = true
  get? : ∃ i, unit.program.functions.get? decl.name = some (.function i decl)

namespace AwaitedCall

variable {unit : CompiledUnit} {s : Stmt} {target : Option String} {decl fn : FunctionDecl}
  {own : Option Site} {args : List Expr} {keywords : Option (List (String × Expr))}
  {inner outer : Site} {depth d pc : Nat} {locals locals' : Bindings Value} {stmts : List Stmt}
  {st st' st'' : Globals × Nat}

theorem reserved (h : AwaitedCall unit s target decl own args keywords inner outer) :
    unit.Reserved decl.name :=
  .inl (List.mem_map.mpr ⟨decl, List.mem_filter.mpr ⟨h.mem, h.async⟩, rfl⟩)

theorem exists_of_erasable (ht : unit.Transparent) (hfn : fn ∈ unit.functions) (hs : s ∈ fn.body)
    {value : Expr} {site : Site} (h : s = .await target value site) :
    ∃ decl own args keywords inner,
      AwaitedCall unit s target decl own args keywords inner site := by
  subst h
  have he := ht.functions fn hfn _ hs
  obtain ⟨f, own, args, keywords, inner, rfl, hf, -, -⟩ := Expr.of_starts he
  obtain ⟨i, decl, hget, hdecl, hasync, rfl⟩ := Program.functions_async ht hf
  exact ⟨decl, own, args, keywords, inner, rfl, he,
    fun n hn => ht.local hfn hs hn, hdecl, hasync, i, hget⟩

/-! #### The coroutine -/

variable (h : AwaitedCall unit s target decl own args keywords inner outer) (hl : unit.Tame locals)
  (hg : unit.TameGlobals st.1)
include h hl hg

theorem async_leads {r : Except Abort (List Value × Bindings Value)}
    (ha : (unit.program.evalArguments (unit.program.callValue depth) ⟨fn.name, locals, .async⟩ args
      keywords inner).exec st = some (r, st')) :
    ∃ (i : Nat) (frame : List Value → CallFrame), (∀ vs, (frame vs).site.name = fn.name) ∧
      Action.Leads (unit.program.evalExpr (unit.program.callValue depth) ⟨fn.name, locals, .async⟩
          (some outer) (.call (.name decl.name own) args keywords inner)) st
        ((Action.done r).bind fun a => (unit.program.callValue depth (.function i decl) a.1
          a.2).catchScript fun r => .raise (r.within (frame a.1))) st' := by
  obtain ⟨i, hget⟩ := h.get?
  exact ⟨i, fun vs => unit.program.frame fn.name decl.name vs inner, fun _ => rfl,
    Program.leads_call (hl.unbound _ h.reserved) (hg.unbound _ h.reserved) hget ha⟩

theorem async_error {e : Abort}
    (ha : (unit.program.evalArguments (unit.program.callValue depth) ⟨fn.name, locals, .async⟩ args
      keywords inner).exec st = some (.error e, st')) :
    Action.Leads (unit.asyncBody depth fn locals pc (s :: stmts)) st (.done (.error e)) st' := by
  obtain ⟨i, frame, -, hlead⟩ := h.async_leads hl hg ha
  rw [h.stmt]
  exact Program.leads_await_error hlead

variable {a : List Value × Bindings Value}

theorem async_stuck
    (ha : (unit.program.evalArguments (unit.program.callValue 0) ⟨fn.name, locals, .async⟩ args
      keywords inner).exec st = some (.ok a, st')) :
    Action.Leads (unit.asyncBody 0 fn locals pc (s :: stmts)) st (.done (.error .outOfFuel)) st' := by
  obtain ⟨i, frame, -, hlead⟩ := h.async_leads hl hg ha
  rw [h.stmt]
  exact Program.leads_await_error hlead

theorem async_refused {failure : Failure}
    (ha : (unit.program.evalArguments (unit.program.callValue (depth + 1)) ⟨fn.name, locals, .async⟩
      args keywords inner).exec st = some (.ok a, st'))
    (hb : decl.bindParams a.1 a.2 = .error failure) :
    ∃ frame, frame.site.name = fn.name ∧
      Action.Leads (unit.asyncBody (depth + 1) fn locals pc (s :: stmts)) st
        (.done (.error (.script ((Record.ofFailure failure).within frame)))) st' := by
  obtain ⟨i, frame, hname, hlead⟩ := h.async_leads hl hg ha
  simp only [Action.bind, Program.callValue_error hb] at hlead
  rw [h.stmt]
  exact ⟨_, hname a.1, Program.leads_await_error hlead⟩

theorem async_spawn
    (ha : (unit.program.evalArguments (unit.program.callValue (depth + 1)) ⟨fn.name, locals, .async⟩
      args keywords inner).exec st = some (.ok a, st'))
    (hb : decl.bindParams a.1 a.2 = .ok locals') :
    Action.Leads (unit.asyncBody (depth + 1) fn locals pc (s :: stmts)) st
      (.spawn decl.name (.function decl) locals' fun c =>
        .done (.ok (⟨pc, locals⟩, .await (.coroutine c)))) st' := by
  obtain ⟨i, frame, -, hlead⟩ := h.async_leads hl hg ha
  simp only [Action.bind, Program.callValue_async hb h.async] at hlead
  rw [h.stmt]
  exact Program.leads_await_spawn rfl hlead

omit hl hg in
/-- The value of what was awaited takes the function on to the next statement. -/
theorem resume_value (hpc : fn.body.drop pc = s :: stmts) (v : Value) :
    (unit.program.bodies depth).resume (.function fn) ⟨pc, locals⟩ (.value v) =
      unit.asyncBody depth fn (locals.awaited target v) (pc + 1) stmts := by
  have hat : Program.awaitAt? fn pc = some (target, outer) := by
    rw [Program.awaitAt?, ← List.head?_drop, hpc, h.stmt]
    rfl
  have hnext : fn.body.drop (pc + 1) = stmts := by rw [← List.tail_drop, hpc, List.tail_cons]
  simp only [Program.bodies, Program.resumeFunction, hat, hnext, CompiledUnit.asyncBody]
  cases target <;> rfl

omit hl hg in
/-- An exception of what was awaited ends the function, within the scope of the function. -/
theorem resume_throw (depth : Nat) (locals : Bindings Value) (hpc : fn.body.drop pc = s :: stmts)
    (r : Record) :
    ∃ frame, frame.site.name = fn.name ∧
      (unit.program.bodies depth).resume (.function fn) ⟨pc, locals⟩ (.throw r) =
        .done (.ok (⟨pc, locals⟩, .raise (r.within frame))) := by
  have hat : Program.awaitAt? fn pc = some (target, outer) := by
    rw [Program.awaitAt?, ← List.head?_drop, hpc, h.stmt]
    rfl
  refine ⟨unit.program.frame fn.name "await" [] outer, rfl, ?_⟩
  simp only [Program.bodies, Program.resumeFunction, hat]
  rfl

/-! #### What is left of it -/

variable (hrun : Builtin.run.name ∉ unit.asyncNames)
include hrun

theorem erased_leads {r : Except Abort (List Value × Bindings Value)}
    (ha : (unit.erased.evalArguments (unit.erased.callValue d) ⟨fn.name, locals, .sync⟩ args
      keywords inner).exec st = some (r, st')) :
    ∃ (i : Nat) (frame : List Value → CallFrame), (∀ vs, (frame vs).site.name = fn.name) ∧
      Action.Leads (unit.erasedBody d fn locals (s :: stmts)) st
        (((Action.done r).bind fun a => (unit.erased.callValue d (.function i decl.erase) a.1
          a.2).catchScript fun r => .raise (r.within (frame a.1))).bind fun v =>
            unit.erasedBody d fn (locals.awaited target v) stmts) st' := by
  obtain ⟨i, hget⟩ := h.get?
  have hget' : unit.erased.functions.get? decl.name = some (.function i decl.erase) := by
    rw [Program.functions_erase, hget]
    rfl
  refine ⟨i, fun vs => unit.erased.frame fn.name decl.erase.name vs inner, fun _ => rfl, ?_⟩
  simp only [CompiledUnit.erasedBody, h.stmt, List.map_cons, ← Scope.awaited_mk]
  refine Program.leads_erased_await ?_
  rw [Expr.erase_of_starts h.starts hrun]
  exact Program.leads_call (hl.unbound _ h.reserved) (hg.unbound _ h.reserved) hget' ha

theorem erased_error {e : Abort}
    (ha : (unit.erased.evalArguments (unit.erased.callValue d) ⟨fn.name, locals, .sync⟩ args
      keywords inner).exec st = some (.error e, st')) :
    Action.Leads (unit.erasedBody d fn locals (s :: stmts)) st (.done (.error e)) st' := by
  obtain ⟨i, frame, -, hlead⟩ := h.erased_leads hl hg hrun ha
  exact hlead

theorem erased_refused (stmts : List Stmt) {failure : Failure}
    (ha : (unit.erased.evalArguments (unit.erased.callValue (d + 1)) ⟨fn.name, locals, .sync⟩ args
      keywords inner).exec st = some (.ok a, st'))
    (hb : decl.bindParams a.1 a.2 = .error failure) :
    ∃ frame, frame.site.name = fn.name ∧
      Action.Leads (unit.erasedBody (d + 1) fn locals (s :: stmts)) st
        (.done (.error (.script ((Record.ofFailure failure).within frame)))) st' := by
  obtain ⟨i, frame, hname, hlead⟩ := h.erased_leads hl hg hrun ha
  have hrefused := decl.erase_bindParams a.1 a.2
  rw [hb] at hrefused
  simp only [Action.bind, Program.callValue_error hrefused] at hlead
  exact ⟨_, hname a.1, hlead⟩

theorem erased_stuck
    (ha : (unit.erased.evalArguments (unit.erased.callValue 0) ⟨fn.name, locals, .sync⟩ args
      keywords inner).exec st = some (.ok a, st')) :
    Action.Leads (unit.erasedBody 0 fn locals (s :: stmts)) st (.done (.error .outOfFuel)) st' := by
  obtain ⟨i, frame, -, hlead⟩ := h.erased_leads hl hg hrun ha
  exact hlead

/-- What is left of an await goes on with the value of the function. -/
theorem erased_value {v : Value}
    (ha : (unit.erased.evalArguments (unit.erased.callValue (d + 1)) ⟨fn.name, locals, .sync⟩ args
      keywords inner).exec st = some (.ok a, st'))
    (hb : decl.bindParams a.1 a.2 = .ok locals')
    (hv : (unit.erasedBody d decl locals' decl.body).exec st' = some (.ok v, st'')) :
    Action.Leads (unit.erasedBody (d + 1) fn locals (s :: stmts)) st
      (unit.erasedBody (d + 1) fn (locals.awaited target v) stmts) st'' := by
  obtain ⟨i, frame, -, hlead⟩ := h.erased_leads hl hg hrun ha
  simp only [Action.bind, Program.callValue_erase hb] at hlead
  exact hlead.trans (((Action.Leads.of_exec hv).catchScript _).bind _)

/-- What is left of an await passes an exception of the function on. -/
theorem erased_raise (stmts : List Stmt) {r : Record}
    (ha : (unit.erased.evalArguments (unit.erased.callValue (d + 1)) ⟨fn.name, locals, .sync⟩ args
      keywords inner).exec st = some (.ok a, st'))
    (hb : decl.bindParams a.1 a.2 = .ok locals')
    (hv : (unit.erasedBody d decl locals' decl.body).exec st' = some (.error (.script r), st'')) :
    ∃ frame, frame.site.name = fn.name ∧
      Action.Leads (unit.erasedBody (d + 1) fn locals (s :: stmts)) st
        (.done (.error (.script (r.within frame)))) st'' := by
  obtain ⟨i, frame, hname, hlead⟩ := h.erased_leads hl hg hrun ha
  simp only [Action.bind, Program.callValue_erase hb] at hlead
  exact ⟨_, hname a.1, hlead.trans (((Action.Leads.of_exec hv).catchScript _).bind _)⟩

theorem erased_host {e : Abort} (he : ∀ r, e ≠ .script r)
    (ha : (unit.erased.evalArguments (unit.erased.callValue (d + 1)) ⟨fn.name, locals, .sync⟩ args
      keywords inner).exec st = some (.ok a, st'))
    (hb : decl.bindParams a.1 a.2 = .ok locals')
    (hv : (unit.erasedBody d decl locals' decl.body).exec st' = some (.error e, st'')) :
    Action.Leads (unit.erasedBody (d + 1) fn locals (s :: stmts)) st (.done (.error e)) st'' := by
  obtain ⟨i, frame, -, hlead⟩ := h.erased_leads hl hg hrun ha
  simp only [Action.bind, Program.callValue_erase hb] at hlead
  have hraises := (Action.Leads.of_exec hv).catchScript fun r => .raise (r.within (frame a.1))
  rw [Action.catchScript_host he] at hraises
  exact hlead.trans (hraises.bind _)

end AwaitedCall

/-! ### The end of what is awaited -/

/-- A coroutine of the function is suspended at a frame, until another one, which is new, ends; the
others are as they were. -/
structure Suspends (fn : FunctionDecl) (frame : Frame) (c c' : CoroutineRef)
    (w w' : World Body Globals) : Prop where
  ne : c'.id ≠ c.id
  others : ∀ i, i ≠ c.id → ∀ y, w.handles.get? i = some y →
    i ≠ c'.id ∧ w'.handles.get? i = some y
  handle : ∃ x, w'.handles.get? c.id = some x ∧ x.status = .suspended ∧ x.frame = frame ∧
    x.body = .function fn

theorem SameEnd.of_script {α : Type} {r : Record} {x : Except Abort α}
    (h : SameEnd (.error (.script r)) x) : ∃ r', x = .error (.script r') ∧ r.Same r' := by
  cases h with
  | error h =>
      cases h with
      | script h => exact ⟨_, rfl, h⟩
      | refl => exact ⟨r, rfl, .refl r⟩

theorem SameEnd.of_host {α : Type} {e : Abort} {x : Except Abort α} (h : SameEnd (.error e) x)
    (he : ∀ r, e ≠ .script r) : x = .error e := by
  cases h with
  | error h =>
      cases h with
      | script h => exact (he _ rfl).elim
      | refl => rfl

theorem splitScript_eq_error {α : Type} {x : Except Abort α} {e : Abort}
    (h : splitScript x = .error e) : x = .error e := by
  rcases x with (r | _ | _ | _ | _) | v <;> cases h <;> rfl

theorem splitScript_eq_ok {x : Except Abort Value} {outcome : Outcome}
    (h : splitScript x = .ok outcome) : x = outcome.mapError .script := by
  rcases x with (r | _ | _ | _ | _) | v <;> cases h <;> rfl

/-- Once what is awaited has ended, the run is broken off by an error of the host, or the one that awaits
is resumed with the outcome. -/
theorem Suspends.returns {unit : CompiledUnit} {runner : Runner Body Globals} {depth t m : Nat}
    {fn : FunctionDecl} {frame : Frame} {c c' : CoroutineRef} {rest : List CoroutineRef}
    {w w₁ w₂ : World Body Globals} {e : Ending Value} {r : Except Abort Value}
    {u : Except Abort Unit × World Body Globals} (h : Suspends fn frame c c' w w₁)
    (hr : Reaches (unit.resumption depth runner) t c' (c :: rest) w₁ m e u r w₂) :
    (∃ err, (∀ record, err ≠ .script record) ∧ e.1 = .error err ∧
      Reaches (unit.resumption depth runner) t c rest w m (.error err, e.2) u r w₂) ∨
    ∃ outcome : Outcome, ∃ w₃, SameEnd (outcome.mapError .script) e.1 ∧
      w₃.Alone t [] (c :: rest) .start none ∧
      (∃ x, w₃.handles.get? c.id = some x ∧ x.body = .function fn) ∧ e.2 = w₃.store ∧
      World.SparesOthers c w w₃ ∧ (m = 0 → u.1 = .error .outOfFuel) ∧
      ∀ n, m = n + 1 → u = World.proceed (unit.resumption depth runner) t c frame n
        (((unit.program.bodies depth).resume (.function fn) frame outcome.input).perform runner w₃) := by
  have hspares : World.SparesOthers c w w₂ := fun i hi y hy =>
    hr.spares i (h.others i hi y hy).1 y (h.others i hi y hy).2
  cases hsplit : splitScript r with
  | error err =>
      have hhost := Action.splitScript_ne hsplit
      obtain rfl := splitScript_eq_error hsplit
      refine .inl ⟨err, hhost, hr.same.of_host hhost, ?_, .refl _, hr.store, hspares, hr.idles,
        fun _ e => by rw [hsplit] at e; cases e⟩
      rw [hr.run, World.settled_host hsplit, World.settled_host hsplit]
  | ok outcome =>
      obtain ⟨x, hx, hstatus, hframe, hbody⟩ := h.handle
      obtain ⟨w₃, hw₃, hstore₃, hothers₃, ⟨x₃, hx₃, hbody₃⟩, hzero, hsucc⟩ :=
        (hr.alone outcome hsplit).settled_resume (unit.program.bodies depth) runner (Ne.symm h.ne)
          (hr.spares _ (Ne.symm h.ne) _ hx) hstatus hsplit
      refine .inr ⟨outcome, w₃, splitScript_eq_ok hsplit ▸ hr.same, hw₃, ⟨x₃, hx₃, hbody₃.trans hbody⟩,
        (hstore₃.trans hr.store).symm, fun i hi y hy =>
          hothers₃ i (h.others i hi y hy).1 hi y (hspares i hi y hy), fun hm => ?_, fun n hn => ?_⟩
      · rw [hr.run, hm]
        exact hzero
      · rw [hr.run, hn, CompiledUnit.resumption, hsucc n, hbody, hframe]

/-- An await whose arguments fit takes the run into the body of the function that is awaited. -/
theorem AwaitedCall.enters {unit : CompiledUnit} (runner : Runner Body Globals) {s : Stmt}
    {target : Option String} {decl fn : FunctionDecl} {own : Option Site} {args : List Expr}
    {keywords : Option (List (String × Expr))} {inner outer : Site} {depth pc t : Nat}
    {locals locals' : Bindings Value} (stmts : List Stmt) {c : CoroutineRef}
    {rest : List CoroutineRef} {w : World Body Globals} {st : Globals × Nat}
    {a : List Value × Bindings Value}
    (h : AwaitedCall unit s target decl own args keywords inner outer) (hl : unit.Tame locals)
    (hg : unit.TameGlobals w.shared)
    (ha : (unit.program.evalArguments (unit.program.callValue (depth + 1)) ⟨fn.name, locals, .async⟩
      args keywords inner).exec w.store = some (.ok a, st))
    (hb : decl.bindParams a.1 a.2 = .ok locals') (hw : w.Alone t [] (c :: rest) .start none)
    (hc : ∃ x, w.handles.get? c.id = some x ∧ x.body = .function fn) (frame : Frame) :
    ∃ c' w', w'.Alone t [] (c' :: c :: rest) .start none ∧ w'.store = st ∧
      (∃ x, w'.handles.get? c'.id = some x ∧ x.body = .function decl) ∧
      Suspends fn ⟨pc, locals⟩ c c' w w' ∧
      (World.proceed (unit.resumption (depth + 1) runner) t c frame 0
        ((unit.asyncBody (depth + 1) fn locals pc (s :: stmts)).perform runner w)).1 =
          .error .outOfFuel ∧
      ∀ m, World.proceed (unit.resumption (depth + 1) runner) t c frame (m + 1)
          ((unit.asyncBody (depth + 1) fn locals pc (s :: stmts)).perform runner w) =
        World.proceed (unit.resumption (depth + 1) runner) t c' ⟨0, locals'⟩ m
          ((unit.asyncBody (depth + 1) decl locals' 0 decl.body).perform runner w') := by
  obtain ⟨x, hx, hbody⟩ := hc
  obtain ⟨c', w', hw', hstore, hne, hothers, hx', hc', hzero, hsucc⟩ :=
    (hw.restore st).await_spawn (unit.program.bodies (depth + 1)) runner hx
      decl.name (.function decl) locals' frame ⟨pc, locals⟩
  refine ⟨c', w', hw', hstore, hc', ⟨Ne.symm hne, hothers, _, hx', rfl, rfl, hbody⟩, ?_, fun m => ?_⟩
  · rw [(h.async_spawn hl hg ha hb).perform]
    exact hzero
  · rw [(h.async_spawn hl hg ha hb).perform]
    exact hsucc m

/-! ### Forwards -/

/-- A run within its bounds has come to the end of the coroutine at the head of its chain as the erased
work does, with some of its steps left. -/
def Forward (unit : CompiledUnit) (resume : CoroutineRef → Input → World Body Globals →
    Except Abort Step × World Body Globals) (a : Script Value) (t : Nat) (c : CoroutineRef)
    (rest : List CoroutineRef) (w : World Body Globals) (m : Nat)
    (u : Except Abort Unit × World Body Globals) : Prop :=
  u.1 = .error .outOfFuel ∨ ∃ e m' r w', m' ≤ m ∧ Yields unit a w.store e ∧
    Reaches resume t c rest w m' e u r w'

section

variable {unit : CompiledUnit} {resume : CoroutineRef → Input → World Body Globals →
    Except Abort Step × World Body Globals} {runner : Runner Body Globals} {t m : Nat}
  {c : CoroutineRef} {rest : List CoroutineRef} {w : World Body Globals} {a : Script Value}
  {x : Script (Frame × Step)} {frame : Frame} {st : Globals × Nat}

/-- Both go on from the same later state. -/
theorem Forward.of_leads {a' : Script Value} {x' : Script (Frame × Step)}
    (hx : Action.Leads x w.store x' st) (ha : Action.Leads a w.store a' st)
    (h : Forward unit resume a' t c rest (w.restore st) m
      (World.proceed resume t c frame m (x'.perform runner (w.restore st)))) :
    Forward unit resume a t c rest w m (World.proceed resume t c frame m (x.perform runner w)) := by
  rw [hx.perform]
  rcases h with h | ⟨e, m', r, w', hm, hy, hr⟩
  · exact .inl h
  · exact .inr ⟨e, m', r, w', hm, hy.of_leads ha, hr.restore⟩

/-- Both end without another await. -/
theorem Forward.finish {y : Except Abort (Frame × Step)} {r r' : Except Abort Value}
    (hw : w.Alone t [] (c :: rest) .start none) (hx : Action.Leads x w.store (.done y) st)
    (hy : World.Finishes y r) (ha : Action.Leads a w.store (.done r') st) (hs : SameEnd r r')
    (hst : unit.TameGlobals st.1) (hv : ∀ v, r' = .ok v → v.Known unit.Keeps) :
    Forward unit resume a t c rest w m (World.proceed resume t c frame m (x.perform runner w)) := by
  obtain ⟨w', hr⟩ := hw.reaches resume runner hx hy hs frame m
  exact .inr ⟨(r', st), m, r, w', Nat.le_refl m, ⟨ha.exec, hst, hv⟩, hr⟩

/-- The bound on nested calls is reached. -/
theorem Forward.stuck (hx : Action.Leads x w.store (.done (.error .outOfFuel)) st) :
    Forward unit resume a t c rest w m (World.proceed resume t c frame m (x.perform runner w)) := by
  rw [hx.perform]
  exact .inl rfl

end

/-- Wherever a coroutine of the function stands at the head of a chain, its statements go forward as
what is left of them. -/
def ForwardAt (unit : CompiledUnit) (runner : Runner Body Globals) (d depth m : Nat)
    (fn : FunctionDecl) (locals : Bindings Value) (pc : Nat) (stmts : List Stmt) : Prop :=
  ∀ (t : Nat) (c : CoroutineRef) (rest : List CoroutineRef) (w : World Body Globals) (frame : Frame),
    w.Alone t [] (c :: rest) .start none →
    (∃ x, w.handles.get? c.id = some x ∧ x.body = .function fn) → unit.TameGlobals w.shared →
    Forward unit (unit.resumption depth runner) (unit.erasedBody d fn locals stmts) t c rest w m
      (World.proceed (unit.resumption depth runner) t c frame m
        ((unit.asyncBody depth fn locals pc stmts).perform runner w))

section

variable {unit : CompiledUnit} {runner : Runner Body Globals} {d depth m pc : Nat}
  {fn : FunctionDecl} {locals : Bindings Value} {stmts : List Stmt}

theorem evaluates_body (ht : unit.Transparent) (hd : depth ≤ d) (hl : unit.Tame locals) :
    Program.Evaluates unit (Mirrored unit.TameGlobals) false unit.program unit.erased
      (unit.program.callValue depth) (unit.erased.callValue d) ⟨fn.name, locals, .async⟩
      ⟨fn.name, locals, .sync⟩ :=
  ⟨Program.alike_erase ht, ht.run_notMem, Program.callsAgree ht (Program.alike_erase ht) hd,
    ⟨rfl, rfl, by simp, hl⟩, nofun⟩

/-- Forwards over a statement that is no await. -/
theorem forward_next (ht : unit.Transparent) (hd : depth ≤ d) (hl : unit.Tame locals) {s : Stmt}
    (hs : s.Kept unit false)
    (ih : ∀ locals', unit.Tame locals' → ForwardAt unit runner d depth m fn locals' (pc + 1) stmts) :
    ForwardAt unit runner d depth m fn locals pc (s :: stmts) := by
  intro t c rest w frame hw hc hg
  obtain ⟨r, st, hexec, hst, hkept, hsame⟩ := Program.agree_execStmt
    (Mirrored.simulation unit.TameGlobals) (evaluates_body ht hd hl) hs w.store hg
  by_cases hne : r = .error .outOfFuel
  · subst hne
    exact .stuck (Program.leads_runAsync_error hexec)
  obtain ⟨r', hexec', hends⟩ := hsame hne
  cases hends with
  | error he =>
      exact .finish hw (Program.leads_runAsync_error hexec) (.error _)
        (Program.leads_runBody_error hexec') (.error he) hst nofun
  | ok completion =>
      have hcompletion := hkept completion rfl
      cases completion with
      | ret v =>
          exact .finish hw (Program.leads_runAsync_ret hexec) (.ret ..)
            (Program.leads_runBody_ret hexec') (.ok v) hst fun v' e => by cases e; exact hcompletion
      | await target => exact hcompletion.elim
      | next v =>
          exact .of_leads (Program.leads_runAsync_next hcompletion nofun hexec)
            (Program.leads_runBody_next hcompletion nofun hexec')
            (ih locals hl t c rest _ frame (hw.restore st) hc hst)
      | bind n v =>
          exact .of_leads (Program.leads_runAsync_next hcompletion nofun hexec)
            (Program.leads_runBody_next hcompletion nofun hexec')
            (ih _ (hl.set hcompletion.2 hcompletion.1) t c rest _ frame (hw.restore st) hc hst)

/-- From a later world of the same run on. -/
theorem Forward.later {resume : CoroutineRef → Input → World Body Globals →
      Except Abort Step × World Body Globals} {a a' : Script Value} {t m' : Nat} {c : CoroutineRef}
    {rest : List CoroutineRef} {w w' : World Body Globals}
    {u : Except Abort Unit × World Body Globals} (h : Forward unit resume a' t c rest w' m' u)
    (hm : m' ≤ m) (hs : World.SparesOthers c w w') (ha : Action.Leads a w.store a' w'.store) :
    Forward unit resume a t c rest w m u := by
  rcases h with h | ⟨e, m'', r, w'', hm'', hy, hr⟩
  · exact .inl h
  · exact .inr ⟨e, m'', r, w'', Nat.le_trans hm'' hm, hy.of_leads ha,
      hr.later hs⟩

/-- Forwards from the end of what was awaited. -/
theorem forward_return (hrun : Builtin.run.name ∉ unit.asyncNames) (hl : unit.Tame locals)
    {s : Stmt} {target : Option String} {decl : FunctionDecl} {own : Option Site} {args : List Expr}
    {keywords : Option (List (String × Expr))} {inner outer : Site}
    (h : AwaitedCall unit s target decl own args keywords inner outer)
    (hpc : fn.body.drop pc = s :: stmts) {t : Nat} {c c' : CoroutineRef} {rest : List CoroutineRef}
    {w w₁ w₂ : World Body Globals} (hg : unit.TameGlobals w.shared)
    {a : List Value × Bindings Value} {locals' : Bindings Value}
    (hargs : (unit.erased.evalArguments (unit.erased.callValue (d + 1)) ⟨fn.name, locals, .sync⟩ args
      keywords inner).exec w.store = some (.ok a, w₁.store))
    (hb : decl.bindParams a.1 a.2 = .ok locals') (hsuspended : Suspends fn ⟨pc, locals⟩ c c' w w₁)
    {e : Ending Value} {m' : Nat} {r : Except Abort Value}
    {u : Except Abort Unit × World Body Globals}
    (hy : Yields unit (unit.erasedBody d decl locals' decl.body) w₁.store e)
    (hr : Reaches (unit.resumption depth runner) t c' (c :: rest) w₁ m' e u r w₂)
    (ihs : ∀ m'' ≤ m', ∀ locals', unit.Tame locals' →
      ForwardAt unit runner (d + 1) depth m'' fn locals' (pc + 1) stmts) :
    Forward unit (unit.resumption depth runner) (unit.erasedBody (d + 1) fn locals (s :: stmts)) t c
      rest w m' u := by
  obtain ⟨e, st⟩ := e
  rcases hsuspended.returns hr with
    ⟨err, hhost, rfl, hr'⟩ | ⟨outcome, w₃, hsame, hw₃, hc₃, rfl, hspares, hzero, hsucc⟩
  · exact .inr ⟨_, m', r, w₂, Nat.le_refl m',
      ⟨(h.erased_host hl hg hrun hhost hargs hb hy.exec).exec, hy.tame, nofun⟩, hr'⟩
  cases m' with
  | zero => exact .inl (hzero rfl)
  | succ m' =>
  rw [hsucc m' rfl]
  rcases outcome with record | v
  · obtain ⟨record', rfl, hrecord⟩ := hsame.of_script
    obtain ⟨frame₁, hframe₁, hresume⟩ := h.resume_throw depth locals hpc record
    obtain ⟨frame₂, hframe₂, hlead⟩ := h.erased_raise hl hg hrun stmts hargs hb hy.exec
    rw [show Outcome.input (.error record) = .throw record from rfl, hresume]
    refine Forward.later ?_ (Nat.le_succ m') hspares hlead
    exact .finish hw₃ (.refl _ _) (.raise _ _) (.refl _ _)
      (.error (.script (hrecord.within (hframe₁.trans hframe₂.symm)))) hy.tame nofun
  · obtain rfl : e = .ok v := by
      cases hsame
      rfl
    rw [show Outcome.input (.ok v) = .value v from rfl, h.resume_value hpc]
    exact (ihs m' (Nat.le_succ m') _ (hl.awaited h.target (hy.value v rfl)) t c rest w₃ _ hw₃ hc₃
      hy.tame).later (Nat.le_succ m') hspares (h.erased_value hl hg hrun hargs hb hy.exec)

/-- Forwards over an await: through the body of what is awaited, and on from what it came to. -/
theorem forward_await (ht : unit.Transparent) (hd : depth + m ≤ d) (hl : unit.Tame locals)
    {s : Stmt} {target : Option String} {decl : FunctionDecl} {own : Option Site} {args : List Expr}
    {keywords : Option (List (String × Expr))} {inner outer : Site}
    (h : AwaitedCall unit s target decl own args keywords inner outer)
    (hpc : fn.body.drop pc = s :: stmts)
    (ihd : ∀ d' < d, ∀ m', depth + m' ≤ d' → ∀ decl ∈ unit.functions, ∀ locals', unit.Tame locals' →
      ForwardAt unit runner d' depth m' decl locals' 0 decl.body)
    (ihs : ∀ m' ≤ m, ∀ locals', unit.Tame locals' →
      ForwardAt unit runner d depth m' fn locals' (pc + 1) stmts) :
    ForwardAt unit runner d depth m fn locals pc (s :: stmts) := by
  intro t c rest w frame hw hc hg
  have hrun := ht.run_notMem
  obtain ⟨r, st, hexec, hst, hkept, hsame⟩ := Program.agree_awaited
    (Mirrored.simulation unit.TameGlobals)
    (evaluates_body ht (Nat.le_trans (Nat.le_add_right depth m) hd) hl) h.starts w.store hg
  by_cases hne : r = .error .outOfFuel
  · subst hne
    exact .stuck (h.async_error hl hg hexec)
  obtain ⟨r', hexec', hends⟩ := hsame hne
  cases hends with
  | error he =>
      exact .finish hw (h.async_error hl hg hexec) (.error _) (h.erased_error hl hg hrun hexec')
        (.error he) hst nofun
  | ok a =>
  cases depth with
  | zero => exact .stuck (h.async_stuck hl hg hexec)
  | succ depth =>
  obtain ⟨d, rfl⟩ : ∃ d', d = d' + 1 := ⟨d - 1, by omega⟩
  cases hb : decl.bindParams a.1 a.2 with
  | error failure =>
      obtain ⟨frame₁, hframe₁, hlead⟩ := h.async_refused hl hg hexec hb
      obtain ⟨frame₂, hframe₂, hlead'⟩ := h.erased_refused hl hg hrun stmts hexec' hb
      exact .finish hw hlead (.error _) hlead'
        (.error (.script ((Record.Same.refl _).within (hframe₁.trans hframe₂.symm)))) hst nofun
  | ok locals' =>
  have hargs := hkept a rfl
  have hl' := ht.tame_bindParams h.mem hargs.1 hargs.2 hb
  obtain ⟨c', w₁, hw₁, hstore, hc', hsuspends, hzero, hsucc⟩ := h.enters runner stmts hl hg hexec hb hw hc frame
  cases m with
  | zero => exact .inl hzero
  | succ m =>
  subst hstore
  -- the body of the function that is awaited
  rcases ihd d (Nat.lt_succ_self d) m (by omega) decl h.mem locals' hl' t c' (c :: rest) w₁ ⟨0, locals'⟩
    hw₁ hc' hst with hinner | ⟨e, m', r, w₂, hm', hy, hr⟩
  · rw [hsucc m]
    exact .inl hinner
  · rw [hsucc m]
    exact (forward_return hrun hl h hpc hg hexec' hb hsuspends hy hr
      fun m'' hm'' => ihs m'' (by omega)).later (by omega) (.of_eq rfl) (.refl _ _)

theorem drop_succ_of_drop {α : Type} {l rest : List α} {n : Nat} {a : α} (h : l.drop n = a :: rest) :
    l.drop (n + 1) = rest := by rw [← List.tail_drop, h, List.tail_cons]

/-- **Forwards**: what a run makes of an async function within its bounds is what is left of the function,
at a depth that covers the calls and the steps of the run.  By induction on the depth, which goes down
from a function to the one that it awaits, and on the statements. -/
theorem forward (ht : unit.Transparent) (hd : depth + m ≤ d) (hfn : fn ∈ unit.functions)
    (hl : unit.Tame locals) (hpc : fn.body.drop pc = stmts) :
    ForwardAt unit runner d depth m fn locals pc stmts := by
  induction d using Nat.strongRecOn generalizing depth m fn locals pc stmts with
  | ind d ihd =>
  induction stmts generalizing pc locals m with
  | nil =>
      exact fun t c rest w frame hw hc hg => .finish hw (.refl _ _) (.ret _ _) (.refl _ _) (.ok _) hg
        fun v e => by cases e; trivial
  | cons s stmts ih =>
      have hs : s ∈ fn.body := List.mem_of_mem_drop (hpc ▸ List.mem_cons_self)
      by_cases hawait : ∃ target value site, s = .await target value site
      · obtain ⟨target, value, site, e⟩ := hawait
        obtain ⟨decl, own, args, keywords, inner, h⟩ := AwaitedCall.exists_of_erasable ht hfn hs e
        exact forward_await ht hd hl h hpc
          (fun d' hd' m' hm decl hdecl locals' hl' => ihd d' hd' hm hdecl hl' rfl)
          fun m' hm locals' hl' => ih (by omega) hl' (drop_succ_of_drop hpc)
      · exact forward_next ht (by omega) hl ⟨ht.functions fn hfn s hs, fun n hn => ht.local hfn hs hn,
          fun target value site e => hawait ⟨target, value, site, e⟩⟩
          fun locals' hl' => ih hd hl' (drop_succ_of_drop hpc)

end

/-! ### Backwards -/

/-- What the erased work comes to, within its bounds, a run comes to in some number of steps, wherever a
coroutine of the function stands at the head of a chain. -/
def Backward (unit : CompiledUnit) (d : Nat) (fn : FunctionDecl) (x : Nat → Script (Frame × Step))
    (a : Script Value) (st : Globals × Nat) : Prop :=
  ∃ e, Yields unit a st e ∧ (e.1 ≠ .error .outOfFuel → ∃ k, ∀ depth, d ≤ depth →
    ∀ (runner : Runner Body Globals) (m t : Nat) (c : CoroutineRef) (rest : List CoroutineRef)
      (w : World Body Globals) (frame : Frame), w.Alone t [] (c :: rest) .start none →
      (∃ x, w.handles.get? c.id = some x ∧ x.body = .function fn) → w.store = st →
      ∃ r w', Reaches (unit.resumption depth runner) t c rest w m e
        (World.proceed (unit.resumption depth runner) t c frame (m + k)
          ((x depth).perform runner w)) r w')

section

variable {unit : CompiledUnit} {d pc : Nat} {fn : FunctionDecl} {locals : Bindings Value}
  {stmts : List Stmt} {st st' : Globals × Nat} {x x' : Nat → Script (Frame × Step)}
  {a a' : Script Value}

theorem evaluates_erased (ht : unit.Transparent) (fn : FunctionDecl) {depth : Nat} (hd : d ≤ depth)
    (hl : unit.Tame locals) :
    Program.Evaluates unit (Mirrored unit.TameGlobals) false unit.erased unit.program
      (unit.erased.callValue d) (unit.program.callValue depth) ⟨fn.name, locals, .sync⟩
      ⟨fn.name, locals, .async⟩ :=
  ⟨(Program.alike_erase ht).symm, ht.run_notMem,
    Program.callsAgree ht (Program.alike_erase ht).symm hd, ⟨rfl, rfl, by simp, hl⟩, nofun⟩

/-- Both go on from the same later state. -/
theorem Backward.of_leads (ha : Action.Leads a st a' st')
    (hx : ∀ depth, d ≤ depth → Action.Leads (x depth) st (x' depth) st')
    (h : Backward unit d fn x' a' st') : Backward unit d fn x a st := by
  obtain ⟨e, hy, hruns⟩ := h
  refine ⟨e, hy.of_leads ha, fun hne => ?_⟩
  obtain ⟨k, hruns⟩ := hruns hne
  refine ⟨k, fun depth hdepth runner m t c rest w frame hw hc hst => ?_⟩
  subst hst
  obtain ⟨r, w', hr⟩ := hruns depth hdepth runner m t c rest _ frame (hw.restore st') hc rfl
  rw [(hx depth hdepth).perform]
  exact ⟨r, w', hr.restore⟩

/-- Both end without another await. -/
theorem Backward.finish {r : Except Abort Value} (ha : Action.Leads a st (.done r) st')
    (hst : unit.TameGlobals st'.1) (hv : ∀ v, r = .ok v → v.Known unit.Keeps)
    (hx : r ≠ .error .outOfFuel → ∀ depth, d ≤ depth → ∃ y r',
      Action.Leads (x depth) st (.done y) st' ∧ World.Finishes y r' ∧ SameEnd r' r) :
    Backward unit d fn x a st := by
  refine ⟨(r, st'), ⟨ha.exec, hst, hv⟩, fun hne => ⟨0, ?_⟩⟩
  intro depth hdepth runner m t c rest w frame hw hc hw'
  obtain ⟨y, r', hlead, hy, hs⟩ := hx hne depth hdepth
  subst hw'
  exact ⟨r', hw.reaches _ _ hlead hy hs frame m⟩

/-- Backwards over a statement that is no await. -/
theorem backward_next (ht : unit.Transparent) (hl : unit.Tame locals) (hst : unit.TameGlobals st.1)
    {s : Stmt} (hs : s.Kept unit false)
    (ih : ∀ locals' st', unit.Tame locals' → unit.TameGlobals st'.1 →
      Backward unit d fn (unit.asyncBody · fn locals' (pc + 1) stmts)
        (unit.erasedBody d fn locals' stmts) st') :
    Backward unit d fn (unit.asyncBody · fn locals pc (s :: stmts))
      (unit.erasedBody d fn locals (s :: stmts)) st := by
  have herase : s.erase = s := Stmt.erase_eq hs.erasable hs.noAwait
  obtain ⟨r, st', hexec, hst', hkept, hother⟩ := Mirrored.common
    (fun depth (hd : d ≤ depth) => Program.agree_execStmt (Mirrored.simulation unit.TameGlobals)
      (evaluates_erased ht fn hd hl) hs) hst
  rw [herase] at hother
  rw [← herase] at hexec
  cases r with
  | error err =>
      refine .finish (Program.leads_runBody_error hexec) hst' nofun fun hne depth hd => ?_
      obtain ⟨r', hexec', hends⟩ := hother (by simpa using hne) depth hd
      cases hends with
      | error he =>
          exact ⟨_, _, Program.leads_runAsync_error hexec', .error _, .error he.symm⟩
  | ok completion =>
      have hcompletion := hkept completion rfl
      have hexec' : ∀ depth, d ≤ depth → (unit.program.execStmt (unit.program.callValue depth)
          ⟨fn.name, locals, .async⟩ s).exec st = some (.ok completion, st') := by
        intro depth hd
        obtain ⟨r', hexec', hends⟩ := hother nofun depth hd
        cases hends
        exact hexec'
      cases completion with
      | ret v =>
          exact .finish (Program.leads_runBody_ret hexec) hst' (fun v' e => by cases e; exact hcompletion)
            fun _ depth hd => ⟨_, _, Program.leads_runAsync_ret (hexec' depth hd), .ret _ _, .ok v⟩
      | await target => exact hcompletion.elim
      | next v =>
          exact .of_leads (Program.leads_runBody_next hcompletion nofun hexec)
            (fun depth hd => Program.leads_runAsync_next hcompletion nofun (hexec' depth hd))
            (ih locals st' hl hst')
      | bind n v =>
          exact .of_leads (Program.leads_runBody_next hcompletion nofun hexec)
            (fun depth hd => Program.leads_runAsync_next hcompletion nofun (hexec' depth hd))
            (ih _ st' (hl.set hcompletion.2 hcompletion.1) hst')

/-- In `k` steps a run comes to the end of what a coroutine of the function awaits. -/
def AwaitEnds (unit : CompiledUnit) (d : Nat) (fn : FunctionDecl) (frame : Frame)
    (x : Nat → Script (Frame × Step)) (st : Globals × Nat) (e : Ending Value) (k : Nat) : Prop :=
  ∀ depth, d ≤ depth → ∀ (runner : Runner Body Globals) (m t : Nat) (c : CoroutineRef)
    (rest : List CoroutineRef) (w : World Body Globals) (frame' : Frame),
    w.Alone t [] (c :: rest) .start none →
    (∃ x, w.handles.get? c.id = some x ∧ x.body = .function fn) → w.store = st →
    ∃ c' w₁ r w₂, Suspends fn frame c c' w w₁ ∧
      Reaches (unit.resumption depth runner) t c' (c :: rest) w₁ m e
        (World.proceed (unit.resumption depth runner) t c frame' (m + k)
          ((x depth).perform runner w)) r w₂

/-- In `k` steps a run comes back to the coroutine that awaits, with what the awaited one came to. -/
def AwaitReturns (unit : CompiledUnit) (d : Nat) (fn : FunctionDecl) (frame : Frame)
    (x : Nat → Script (Frame × Step)) (st st' : Globals × Nat) (e : Except Abort Value) (k : Nat) :
    Prop :=
  ∀ depth, d ≤ depth → ∀ (runner : Runner Body Globals) (m t : Nat) (c : CoroutineRef)
    (rest : List CoroutineRef) (w : World Body Globals) (frame' : Frame),
    w.Alone t [] (c :: rest) .start none →
    (∃ x, w.handles.get? c.id = some x ∧ x.body = .function fn) → w.store = st →
    ∃ outcome : Outcome, ∃ w₃, SameEnd (outcome.mapError .script) e ∧
      w₃.Alone t [] (c :: rest) .start none ∧
      (∃ x, w₃.handles.get? c.id = some x ∧ x.body = .function fn) ∧ w₃.store = st' ∧
      World.SparesOthers c w w₃ ∧
      World.proceed (unit.resumption depth runner) t c frame' (m + k)
          ((x depth).perform runner w) =
        World.proceed (unit.resumption depth runner) t c frame m
          (((unit.program.bodies depth).resume (.function fn) frame outcome.input).perform runner w₃)

/-- The one that awaits is resumed with at least one step more. -/
theorem AwaitEnds.returns {frame : Frame} {e : Ending Value} {k : Nat}
    (h : AwaitEnds unit d fn frame x st e k) (outcome : Outcome)
    (he : SameEnd (outcome.mapError .script) e.1) :
    AwaitReturns unit d fn frame x st e.2 e.1 (k + 1) := by
  intro depth hd runner m t c rest w frame' hw hc hst
  obtain ⟨c', w₁, r, w₂, hsuspends, hr⟩ := h depth hd runner (m + 1) t c rest w frame' hw hc hst
  rcases hsuspends.returns hr with
    ⟨err, herr, he', -⟩ | ⟨outcome', w₃, hsame, hw₃, hc₃, hstore, hspares, -, hsucc⟩
  · rw [he'] at he
    rcases outcome with record | v
    · obtain ⟨record', he, -⟩ := he.of_script
      cases he
      exact (herr _ rfl).elim
    · cases he
  · refine ⟨outcome', w₃, hsame, hw₃, hc₃, hstore.symm, hspares, ?_⟩
    rw [← hsucc m rfl, Nat.add_assoc, Nat.add_comm 1 k]

section

variable {s : Stmt} {target : Option String} {decl : FunctionDecl} {own : Option Site}
  {args : List Expr} {keywords : Option (List (String × Expr))} {inner outer : Site}
  {a : List Value × Bindings Value} {locals' : Bindings Value} {st₂ : Globals × Nat}

/-- An error of the host in what is awaited breaks off both. -/
theorem backward_host (hrun : Builtin.run.name ∉ unit.asyncNames) (hl : unit.Tame locals)
    (hg : unit.TameGlobals st.1) (h : AwaitedCall unit s target decl own args keywords inner outer)
    (hargs : (unit.erased.evalArguments (unit.erased.callValue (d + 1)) ⟨fn.name, locals, .sync⟩ args
      keywords inner).exec st = some (.ok a, st'))
    (hb : decl.bindParams a.1 a.2 = .ok locals') {err : Abort} (hhost : ∀ r, err ≠ .script r)
    (hy : Yields unit (unit.erasedBody d decl locals' decl.body) st' (.error err, st₂))
    (hends : err ≠ .outOfFuel → ∃ k, AwaitEnds unit (d + 1) fn ⟨pc, locals⟩
      (unit.asyncBody · fn locals pc (s :: stmts)) st (.error err, st₂) k) :
    Backward unit (d + 1) fn (unit.asyncBody · fn locals pc (s :: stmts))
      (unit.erasedBody (d + 1) fn locals (s :: stmts)) st := by
  refine ⟨(.error err, st₂),
    ⟨(h.erased_host hl hg hrun hhost hargs hb hy.exec).exec, hy.tame, nofun⟩, fun hne => ?_⟩
  obtain ⟨k, hends⟩ := hends fun e => hne (by rw [e])
  refine ⟨k, fun depth hd runner m t c rest w frame hw hc hst => ?_⟩
  obtain ⟨c', w₁, r, w₂, hsuspends, hr⟩ := hends depth hd runner m t c rest w frame hw hc hst
  rcases hsuspends.returns hr with ⟨err', -, he, hr'⟩ | ⟨outcome, -, hsame, -⟩
  · cases he
    exact ⟨r, w₂, hr'⟩
  · rcases outcome with record | v
    · obtain ⟨record', he, -⟩ := hsame.of_script
      cases he
      exact (hhost _ rfl).elim
    · cases hsame

/-- An exception of what is awaited goes on through the function that awaits. -/
theorem backward_raise (hrun : Builtin.run.name ∉ unit.asyncNames) (hl : unit.Tame locals)
    (hg : unit.TameGlobals st.1) (h : AwaitedCall unit s target decl own args keywords inner outer)
    (hpc : fn.body.drop pc = s :: stmts)
    (hargs : (unit.erased.evalArguments (unit.erased.callValue (d + 1)) ⟨fn.name, locals, .sync⟩ args
      keywords inner).exec st = some (.ok a, st'))
    (hb : decl.bindParams a.1 a.2 = .ok locals') {record : Record}
    (hy : Yields unit (unit.erasedBody d decl locals' decl.body) st' (.error (.script record), st₂))
    {k : Nat} (hreturns : AwaitReturns unit (d + 1) fn ⟨pc, locals⟩
      (unit.asyncBody · fn locals pc (s :: stmts)) st st₂ (.error (.script record)) k) :
    Backward unit (d + 1) fn (unit.asyncBody · fn locals pc (s :: stmts))
      (unit.erasedBody (d + 1) fn locals (s :: stmts)) st := by
  obtain ⟨frame₂, hframe₂, hlead⟩ := h.erased_raise hl hg hrun stmts hargs hb hy.exec
  refine ⟨_, ⟨hlead.exec, hy.tame, nofun⟩, fun _ => ⟨k, ?_⟩⟩
  intro depth hd runner m t c rest w frame hw hc hst
  obtain ⟨outcome, w₃, hsame, hw₃, -, hstore, hspares, hproceed⟩ :=
    hreturns depth hd runner m t c rest w frame hw hc hst
  rcases outcome with record' | v
  · obtain ⟨record'', he, hrecord⟩ := hsame.of_script
    cases he
    obtain ⟨frame₁, hframe₁, hresume⟩ := h.resume_throw depth locals hpc record'
    rw [hproceed, show Outcome.input (.error record') = .throw record' from rfl, hresume]
    obtain ⟨w', hr⟩ := hw₃.reaches (unit.resumption depth runner) runner
      (.refl _ _) (.raise _ _)
      (.error (.script (hrecord.within (hframe₁.trans hframe₂.symm)))) ⟨pc, locals⟩ m
    rw [hstore] at hr
    exact ⟨_, w', hr.later hspares⟩
  · cases hsame

/-- With a value of what is awaited the function that awaits goes on at its next statement. -/
theorem backward_value (hrun : Builtin.run.name ∉ unit.asyncNames) (hl : unit.Tame locals)
    (hg : unit.TameGlobals st.1) (h : AwaitedCall unit s target decl own args keywords inner outer)
    (hpc : fn.body.drop pc = s :: stmts)
    (hargs : (unit.erased.evalArguments (unit.erased.callValue (d + 1)) ⟨fn.name, locals, .sync⟩ args
      keywords inner).exec st = some (.ok a, st'))
    (hb : decl.bindParams a.1 a.2 = .ok locals') {v : Value}
    (hy : Yields unit (unit.erasedBody d decl locals' decl.body) st' (.ok v, st₂))
    {k : Nat} (hreturns : AwaitReturns unit (d + 1) fn ⟨pc, locals⟩
      (unit.asyncBody · fn locals pc (s :: stmts)) st st₂ (.ok v) k)
    (ihs : ∀ locals' st', unit.Tame locals' → unit.TameGlobals st'.1 →
      Backward unit (d + 1) fn (unit.asyncBody · fn locals' (pc + 1) stmts)
        (unit.erasedBody (d + 1) fn locals' stmts) st') :
    Backward unit (d + 1) fn (unit.asyncBody · fn locals pc (s :: stmts))
      (unit.erasedBody (d + 1) fn locals (s :: stmts)) st := by
  obtain ⟨e, hy', hruns⟩ := ihs (locals.awaited target v) st₂
    (hl.awaited h.target (hy.value v rfl)) hy.tame
  refine ⟨e, hy'.of_leads (h.erased_value hl hg hrun hargs hb hy.exec), fun hne => ?_⟩
  obtain ⟨k', hruns⟩ := hruns hne
  refine ⟨k' + k, fun depth hd runner m t c rest w frame hw hc hst => ?_⟩
  obtain ⟨outcome, w₃, hsame, hw₃, hc₃, hstore, hspares, hproceed⟩ :=
    hreturns depth hd runner (m + k') t c rest w frame hw hc hst
  rcases outcome with record | v'
  · obtain ⟨record', he, -⟩ := hsame.of_script
    cases he
  · cases hsame
    rw [← Nat.add_assoc, hproceed, show Outcome.input (.ok v) = .value v from rfl,
      h.resume_value hpc]
    obtain ⟨r, w', hr⟩ := hruns depth hd runner m t c rest w₃ _ hw₃ hc₃ hstore
    exact ⟨r, w', hr.later hspares⟩

/-- Backwards from the end of what was awaited. -/
theorem backward_return (hrun : Builtin.run.name ∉ unit.asyncNames) (hl : unit.Tame locals)
    (hg : unit.TameGlobals st.1) (h : AwaitedCall unit s target decl own args keywords inner outer)
    (hpc : fn.body.drop pc = s :: stmts)
    (hargs : (unit.erased.evalArguments (unit.erased.callValue (d + 1)) ⟨fn.name, locals, .sync⟩ args
      keywords inner).exec st = some (.ok a, st'))
    (hb : decl.bindParams a.1 a.2 = .ok locals') {e : Ending Value}
    (hy : Yields unit (unit.erasedBody d decl locals' decl.body) st' e)
    (hends : e.1 ≠ .error .outOfFuel → ∃ k, AwaitEnds unit (d + 1) fn ⟨pc, locals⟩
      (unit.asyncBody · fn locals pc (s :: stmts)) st e k)
    (ihs : ∀ locals' st', unit.Tame locals' → unit.TameGlobals st'.1 →
      Backward unit (d + 1) fn (unit.asyncBody · fn locals' (pc + 1) stmts)
        (unit.erasedBody (d + 1) fn locals' stmts) st') :
    Backward unit (d + 1) fn (unit.asyncBody · fn locals pc (s :: stmts))
      (unit.erasedBody (d + 1) fn locals (s :: stmts)) st := by
  obtain ⟨e, st₂⟩ := e
  have hhost : ∀ err, (∀ r, err ≠ .script r) → e = .error err →
      Backward unit (d + 1) fn (unit.asyncBody · fn locals pc (s :: stmts))
        (unit.erasedBody (d + 1) fn locals (s :: stmts)) st := by
    rintro err hhost rfl
    exact backward_host hrun hl hg h hargs hb hhost hy fun hne => hends (by simpa using hne)
  rcases e with (record | _ | _ | _ | _) | v
  · obtain ⟨k, hends⟩ := hends nofun
    exact backward_raise hrun hl hg h hpc hargs hb hy
      (hends.returns (.error record) (.refl _))
  · exact hhost _ (fun r e => by cases e) rfl
  · exact hhost _ (fun r e => by cases e) rfl
  · exact hhost _ (fun r e => by cases e) rfl
  · exact hhost _ (fun r e => by cases e) rfl
  · obtain ⟨k, hends⟩ := hends nofun
    exact backward_value hrun hl hg h hpc hargs hb hy
      (hends.returns (.ok v) (.ok v)) ihs

end

/-- Backwards over an await: through the body of what is awaited, and on from what it came to. -/
theorem backward_await (ht : unit.Transparent) (hl : unit.Tame locals) (hg : unit.TameGlobals st.1)
    {s : Stmt} {target : Option String} {decl : FunctionDecl} {own : Option Site} {args : List Expr}
    {keywords : Option (List (String × Expr))} {inner outer : Site}
    (h : AwaitedCall unit s target decl own args keywords inner outer)
    (hpc : fn.body.drop pc = s :: stmts)
    (ihd : ∀ d' < d, ∀ decl ∈ unit.functions, ∀ locals' st', unit.Tame locals' →
      unit.TameGlobals st'.1 → Backward unit d' decl (unit.asyncBody · decl locals' 0 decl.body)
        (unit.erasedBody d' decl locals' decl.body) st')
    (ihs : ∀ locals' st', unit.Tame locals' → unit.TameGlobals st'.1 →
      Backward unit d fn (unit.asyncBody · fn locals' (pc + 1) stmts)
        (unit.erasedBody d fn locals' stmts) st') :
    Backward unit d fn (unit.asyncBody · fn locals pc (s :: stmts))
      (unit.erasedBody d fn locals (s :: stmts)) st := by
  have hrun := ht.run_notMem
  obtain ⟨r, st', hexec, hst', hkept, hother⟩ := Mirrored.common
    (fun depth (hd : d ≤ depth) => Program.agree_awaited (Mirrored.simulation unit.TameGlobals)
      (evaluates_erased ht fn hd hl) h.starts) hg
  cases r with
  | error err =>
      refine .finish (h.erased_error hl hg hrun hexec) hst' nofun fun hne depth hd => ?_
      obtain ⟨r', hexec', hends⟩ := hother (by simpa using hne) depth hd
      cases hends with
      | error he => exact ⟨_, _, h.async_error hl hg hexec', .error _, .error he.symm⟩
  | ok a =>
  have hexec' : ∀ depth, d ≤ depth → (unit.program.evalArguments (unit.program.callValue depth)
      ⟨fn.name, locals, .async⟩ args keywords inner).exec st = some (.ok a, st') := by
    intro depth hd
    obtain ⟨r', hexec', hends⟩ := hother nofun depth hd
    cases hends
    exact hexec'
  cases d with
  | zero => exact .finish (h.erased_stuck hl hg hrun hexec) hst' nofun fun hne => (hne rfl).elim
  | succ d =>
  cases hb : decl.bindParams a.1 a.2 with
  | error failure =>
      obtain ⟨frame, hframe, hlead⟩ := h.erased_refused hl hg hrun stmts hexec hb
      refine .finish hlead hst' nofun fun _ depth hd => ?_
      obtain ⟨depth, rfl⟩ : ∃ depth', depth = depth' + 1 := ⟨depth - 1, by omega⟩
      obtain ⟨frame', hframe', hlead'⟩ := h.async_refused hl hg (hexec' _ hd) hb
      exact ⟨_, _, hlead', .error _,
        .error (.script ((Record.Same.refl _).within (hframe'.trans hframe.symm)))⟩
  | ok locals' =>
  have hargs := hkept a rfl
  have hl' := ht.tame_bindParams h.mem hargs.1 hargs.2 hb
  obtain ⟨⟨e, st₂⟩, hy, hruns⟩ := ihd d (Nat.lt_succ_self d) decl h.mem locals' st' hl' hst'
  refine backward_return hrun hl hg h hpc hexec hb hy (fun hne => ?_) ihs
  obtain ⟨k, hruns⟩ := hruns hne
  refine ⟨k + 1, fun depth hd runner m t c rest w frame hw hc hst => ?_⟩
  subst hst
  obtain ⟨depth, rfl⟩ : ∃ depth', depth = depth' + 1 := ⟨depth - 1, by omega⟩
  obtain ⟨c', w₁, hw₁, hstore, hc', hsuspends, -, hsucc⟩ :=
    h.enters runner stmts hl hg (hexec' _ hd) hb hw hc frame
  obtain ⟨r, w₂, hr⟩ := hruns (depth + 1) (by omega) runner m t c' (c :: rest) w₁ ⟨0, locals'⟩ hw₁
    hc' hstore
  exact ⟨c', w₁, r, w₂, hsuspends, by rw [← Nat.add_assoc, hsucc]; exact hr⟩

/-- **Backwards**: what the erased function comes to at a depth a run comes to in some number of steps.  By
induction on the depth, which goes down from a function to the one that it awaits, and on the
statements. -/
theorem backward (ht : unit.Transparent) (hfn : fn ∈ unit.functions) (hl : unit.Tame locals)
    (hst : unit.TameGlobals st.1) (hpc : fn.body.drop pc = stmts) :
    Backward unit d fn (unit.asyncBody · fn locals pc stmts) (unit.erasedBody d fn locals stmts) st := by
  induction d using Nat.strongRecOn generalizing fn locals pc stmts st with
  | ind d ihd =>
  induction stmts generalizing pc locals st with
  | nil =>
      exact .finish (.refl _ _) hst (fun v e => by cases e; trivial) fun _ depth _ =>
        ⟨_, _, .refl _ _, .ret _ _, .ok _⟩
  | cons s stmts ih =>
      have hs : s ∈ fn.body := List.mem_of_mem_drop (hpc ▸ List.mem_cons_self)
      by_cases hawait : ∃ target value site, s = .await target value site
      · obtain ⟨target, value, site, e⟩ := hawait
        obtain ⟨decl, own, args, keywords, inner, h⟩ := AwaitedCall.exists_of_erasable ht hfn hs e
        exact backward_await ht hl hst h hpc
          (fun d' hd' decl hdecl locals' st' hl' hst' => ihd d' hd' hdecl hl' hst' rfl)
          fun locals' st' hl' hst' => ih hl' hst' (drop_succ_of_drop hpc)
      · exact backward_next ht hl hst ⟨ht.functions fn hfn s hs, fun n hn => ht.local hfn hs hn,
          fun target value site e => hawait ⟨target, value, site, e⟩⟩
          fun locals' st' hl' hst' => ih hl' hst' (drop_succ_of_drop hpc)

end

end Coroutines
