import Coroutines.Proofs.Erasure.Bodies

/-!
# Launches of coroutines

Where the module of a unit runs a coroutine, that of the erased unit calls the function.  Outside any run
the scheduler is idle, so a run starts with the new coroutine alone; with the two directions for async
functions this makes the whole module simulate what is left of it, in both directions.
-/

namespace Coroutines

namespace World

variable {β σ : Type} {w : World β σ}

/-- A run of a new coroutine goes into its body, with one step less. -/
theorem Idle.run_spawn (h : w.Idle) (bodies : Bodies β σ) (name : String) (b : β) (locals : Bindings Value) (n : Nat) :
    ∃ t c w', w'.Alone t [] [c] .start none ∧ w'.store = w.store ∧
      (∃ x, w'.handles.get? c.id = some x ∧ x.body = b) ∧
      (w.spawn name b locals).2.run bodies (n + 1) 0 (w.spawn name b locals).1 =
        close t c (proceed (resumeWith bodies (Action.perform (runner bodies n))) t c ⟨0, locals⟩ n
          ((bodies.resume b ⟨0, locals⟩ .start).perform (runner bodies n) w')) := by
  have hidle : (w.spawn name b locals).2.Idle := h
  have hnew : (w.spawn name b locals).2.handles.get? (w.spawn name b locals).1.id =
      some (.create name b locals) := (Table.get?_push ..).trans (if_pos rfl)
  obtain ⟨t, w₁, hw₁, hstore₁, ⟨task, hx₁⟩, hrun⟩ := hidle.runWith_launch
    (resumeWith bodies (Action.perform (runner bodies n))) hnew rfl rfl
  obtain ⟨w₂, hw₂, -, hstore₂, hbody, hproceed⟩ :=
    hw₁.drain_proceed bodies (runner bodies n) hx₁ rfl
  exact ⟨t, _, w₂, hw₂, hstore₂.trans hstore₁, hbody,
    (hrun (n + 1)).trans (congrArg (close t _) (hproceed n))⟩

/-- A run without steps is out of its bounds. -/
theorem Idle.run_zero (h : w.Idle) (bodies : Bodies β σ) (name : String) (b : β)
    (locals : Bindings Value) :
    ((w.spawn name b locals).2.run bodies 0 0 (w.spawn name b locals).1).1 = .error .outOfFuel := by
  have hidle : (w.spawn name b locals).2.Idle := h
  have hnew : (w.spawn name b locals).2.handles.get? (w.spawn name b locals).1.id =
      some (.create name b locals) := (Table.get?_push ..).trans (if_pos rfl)
  obtain ⟨t, w₁, -, -, -, hrun⟩ := hidle.runWith_launch (resume bodies 0) hnew rfl rfl
  exact congrArg Prod.fst (hrun 0)

theorem close_error_fst {t : Nat} {c : CoroutineRef} {x : Except Abort Unit × World β σ} {e : Abort}
    (h : x.1 = .error e) : (close t c x).1 = .error e := by
  rcases x with ⟨r, w⟩
  obtain rfl : r = .error e := h
  rfl

end World

/-! ### Ends of work on a world -/

/-- Work on a world ended in the same way as other work did, with the scheduler idle. -/
structure Arrives {α : Type} (x : Except Abort α × World Body Globals) (r : Except Abort α)
    (st : Globals × Nat) : Prop where
  same : SameEnd x.1 r
  store : x.2.store = st
  idle : x.2.Idle

namespace Arrives

variable {α γ : Type} {runner : Runner Body Globals} {a : Script α} {w : World Body Globals}
  {st : Globals × Nat}

theorem bind_ok {v : α} (h : Arrives (a.perform runner w) (.ok v) st) :
    ∃ w', w'.Idle ∧ w'.store = st ∧
      ∀ k : α → Script γ, (a.bind k).perform runner w = (k v).perform runner w' := by
  obtain ⟨hs, hstore, hidle⟩ := h
  rcases hp : a.perform runner w with ⟨r, w'⟩
  rw [hp] at hs hstore hidle
  cases hs
  exact ⟨w', hidle, hstore, fun k => by rw [Action.perform_bind, hp]; rfl⟩

theorem bind_error {e : Abort} (h : Arrives (a.perform runner w) (.error e) st)
    (k : α → Script γ) : Arrives ((a.bind k).perform runner w) (.error e) st := by
  obtain ⟨hs, hstore, hidle⟩ := h
  rcases hp : a.perform runner w with ⟨r, w'⟩
  rw [hp] at hs hstore hidle
  rw [Action.perform_bind, hp]
  cases hs with
  | error hs => exact ⟨.error hs, hstore, hidle⟩

theorem passed {r : Except Abort α} (h : Arrives (a.perform runner w) r st) {frame frame' : CallFrame}
    (hf : frame.site.name = frame'.site.name) :
    Arrives ((a.catchScript fun r => .raise (r.within frame)).perform runner w)
      (Coroutines.passed frame' r) st := by
  rw [Action.perform_passed]
  exact ⟨h.same.passed hf, h.store, h.idle⟩

end Arrives

/-! ### The two directions -/

/-- What a runner makes of work ends in the same way and in the same state as other work without
coroutines, unless it ends at the bounds of the host. -/
def Followed (ok : Globals → Prop) (runner : Runner Body Globals) : ScriptRelation :=
  fun α post a a' => ∀ w : World Body Globals, w.Idle → ok w.shared →
    (a.perform runner w).1 = .error .outOfFuel ∨
      ∃ r st, a'.exec w.store = some (r, st) ∧ ok st.1 ∧ (∀ x : α, r = .ok x → post x) ∧
        Arrives (a.perform runner w) r st

/-- Work without coroutines ends, unless at the bounds of the host, in the same way and in the same state as
what all but the first runners make of other work. -/
def Performed (ok : Globals → Prop) (runners : Nat → Runner Body Globals) : ScriptRelation :=
  fun α post a a' => ∀ st, ok st.1 →
    ∃ r st', a'.exec st = some (r, st') ∧ ok st'.1 ∧ (∀ x : α, r = .ok x → post x) ∧
      (r ≠ .error .outOfFuel → ∃ k, ∀ n, k ≤ n → ∀ w : World Body Globals, w.Idle → w.store = st →
        Arrives (a.perform (runners n) w) r st')

theorem Followed.simulation (ok : Globals → Prop) (runner : Runner Body Globals) :
    Simulation ok (Followed ok runner) where
  value {α post x} h w hw hok :=
    .inr ⟨.ok x, w.store, rfl, hok, fun y e => by cases e; exact h, .ok x, rfl, hw⟩
  error {α post e e'} h w hw hok :=
    .inr ⟨.error e', w.store, rfl, hok, nofun, .error h, rfl, hw⟩
  bind {α γ post post' a a' k k'} h hk w hw hok := by
    rcases h w hw hok with hout | ⟨r, st, he, hst, hpost, ha⟩
    · refine .inl ?_
      rw [Action.perform_bind]
      rcases hp : a.perform runner w with ⟨r, w'⟩
      rw [hp] at hout
      obtain rfl : r = .error .outOfFuel := hout
      rfl
    · cases r with
      | error e =>
          exact .inr ⟨.error e, st, Action.exec_bind_error he, hst, nofun,
            ha.bind_error k⟩
      | ok x =>
          obtain ⟨w', hw', rfl, hperform⟩ := ha.bind_ok (γ := γ)
          rw [hperform, Action.exec_bind_ok he]
          exact hk x (hpost x rfl) w' hw' hst
  read h w hw hok := h w.shared hok w hw hok
  modify {α post f next next'} hf h w hw hok := h { w with shared := f w.shared } hw (hf _ hok)
  identity h w hw hok := h w.nextIdentity w.identity.2 hw hok
  passed {α post a a'} frame frame' hf h w hw hok := by
    rcases h w hw hok with hout | ⟨r, st, he, hst, hpost, ha⟩
    · refine .inl ?_
      rw [Action.perform_passed, hout]
      rfl
    · exact .inr ⟨_, st, Action.exec_passed he frame', hst, fun x e => hpost x (passed_eq_ok.mp e),
        ha.passed hf⟩

theorem Performed.simulation (ok : Globals → Prop) (runners : Nat → Runner Body Globals) :
    Simulation ok (Performed ok runners) where
  value {α post x} h st hok :=
    ⟨.ok x, st, rfl, hok, fun y e => by cases e; exact h, fun _ => ⟨0, fun n _ w hw hst =>
      ⟨.ok x, hst, hw⟩⟩⟩
  error {α post e e'} h st hok :=
    ⟨.error e', st, rfl, hok, nofun, fun _ => ⟨0, fun n _ w hw hst =>
      ⟨.error h, hst, hw⟩⟩⟩
  bind {α γ post post' a a' k k'} h hk st hok := by
    obtain ⟨r, st₁, he, hst, hpost, ha⟩ := h st hok
    cases r with
    | error e =>
        refine ⟨.error e, st₁, Action.exec_bind_error he, hst, nofun, fun hne => ?_⟩
        obtain ⟨m, ha⟩ := ha (by simpa using hne)
        exact ⟨m, fun n hn w hw hwst => (ha n hn w hw hwst).bind_error k⟩
    | ok x =>
        obtain ⟨r', st₂, he', hst', hpost', hk⟩ := hk x (hpost x rfl) st₁ hst
        refine ⟨r', st₂, (Action.exec_bind_ok he).trans he', hst', hpost', fun hne => ?_⟩
        obtain ⟨m, ha⟩ := ha (fun e => by cases e)
        obtain ⟨m', hk⟩ := hk hne
        refine ⟨max m m', fun n hn w hw hwst => ?_⟩
        obtain ⟨w', hw', hst', hperform⟩ :=
          (ha n (Nat.le_trans (Nat.le_max_left ..) hn) w hw hwst).bind_ok (γ := γ)
        rw [hperform]
        exact hk n (Nat.le_trans (Nat.le_max_right ..) hn) w' hw' hst'
  read {α post next next'} h st hok := by
    obtain ⟨r, st', he, hst, hpost, ha⟩ := h st.1 hok st hok
    refine ⟨r, st', he, hst, hpost, fun hne => ?_⟩
    obtain ⟨k, ha⟩ := ha hne
    refine ⟨k, fun n hn w hw hwst => ?_⟩
    subst hwst
    exact ha n hn w hw rfl
  modify {α post f next next'} hf h st hok := by
    obtain ⟨r, st', he, hst, hpost, ha⟩ := h (f st.1, st.2) (hf _ hok)
    refine ⟨r, st', he, hst, hpost, fun hne => ?_⟩
    obtain ⟨k, ha⟩ := ha hne
    refine ⟨k, fun n hn w hw hwst => ?_⟩
    subst hwst
    exact ha n hn { w with shared := f w.shared } hw rfl
  identity {α post next next'} h st hok := by
    obtain ⟨r, st', he, hst, hpost, ha⟩ := h st.2 (st.1, st.2 + 1) hok
    refine ⟨r, st', he, hst, hpost, fun hne => ?_⟩
    obtain ⟨k, ha⟩ := ha hne
    refine ⟨k, fun n hn w hw hwst => ?_⟩
    subst hwst
    exact ha n hn w.identity.2 hw rfl
  passed {α post a a'} frame frame' hf h st hok := by
    obtain ⟨r, st', he, hst, hpost, ha⟩ := h st hok
    refine ⟨_, st', Action.exec_passed he frame', hst, fun x e => hpost x (passed_eq_ok.mp e),
      fun hne => ?_⟩
    obtain ⟨k, ha⟩ := ha fun e => hne (passed_eq_outOfFuel.mpr e)
    exact ⟨k, fun n hn w hw hwst => (ha n hn w hw hwst).passed hf⟩

/-- A relation that does not depend on steps that leave the state as it is. -/
structure Skips (ok : Globals → Prop) (rel : ScriptRelation) : Prop where
  leads {α : Type} {post : α → Prop} {a a' b b' : Script α}
    (ha : ∀ st : Globals × Nat, ok st.1 → Action.Leads a st b st)
    (ha' : ∀ st : Globals × Nat, ok st.1 → Action.Leads a' st b' st) (h : rel α post b b') :
    rel α post a a'

theorem Followed.skips (ok : Globals → Prop) (runner : Runner Body Globals) :
    Skips ok (Followed ok runner) where
  leads ha ha' h w hw hok := by
    rw [(ha w.store hok).perform, (ha' w.store hok).exec]
    exact h w hw hok

theorem Performed.skips (ok : Globals → Prop) (runners : Nat → Runner Body Globals) :
    Skips ok (Performed ok runners) where
  leads ha ha' h st hok := by
    obtain ⟨r, st', he, hst, hpost, hruns⟩ := h st hok
    refine ⟨r, st', (ha' st hok).exec.trans he, hst, hpost, fun hne => ?_⟩
    obtain ⟨k, hruns⟩ := hruns hne
    refine ⟨k, fun n hn w hw hwst => ?_⟩
    subst hwst
    rw [(ha w.store hok).perform]
    exact hruns n hn w hw rfl

/-- Work without coroutines is followed by what it mirrors. -/
theorem Followed.of_mirrored {ok : Globals → Prop} {runner : Runner Body Globals} {α : Type}
    {post : α → Prop} {a a' : Script α} (h : Mirrored ok α post a a') :
    Followed ok runner α post a a' := by
  intro w hw hok
  obtain ⟨r, st, he, hst, hpost, hsame⟩ := h w.store hok
  have hperform : a.perform runner w = (r, w.restore st) := Action.perform_of_exec he
  rw [hperform]
  by_cases hne : r = .error .outOfFuel
  · exact .inl hne
  · obtain ⟨r', he', hs⟩ := hsame hne
    refine .inr ⟨r', st, he', hst, fun x e => ?_, hs, rfl, hw⟩
    subst e
    cases hs
    exact hpost x rfl

theorem Performed.of_mirrored {ok : Globals → Prop} {runners : Nat → Runner Body Globals} {α : Type}
    {post : α → Prop} {a a' : Script α} (h : Mirrored ok α post a' a) :
    Performed ok runners α post a a' := by
  intro st hok
  obtain ⟨r, st', he, hst, hpost, hsame⟩ := h st hok
  refine ⟨r, st', he, hst, hpost, fun hne => ?_⟩
  obtain ⟨r', he', hs⟩ := hsame hne
  refine ⟨0, fun n _ w hw hwst => ?_⟩
  subst hwst
  have hperform : a.perform (runners n) w = (r', w.restore st') := Action.perform_of_exec he'
  rw [hperform]
  exact ⟨hs.symm, rfl, hw⟩

/-! ### Runs of async functions -/

/-- What a module does to run a coroutine of an async function. -/
def FunctionDecl.launch (decl : FunctionDecl) (locals : Bindings Value) : Script Value :=
  .spawn decl.name (.function decl) locals fun c => .run 0 c fun r => .ofOutcome r

namespace CompiledUnit

variable {unit : CompiledUnit} {decl : FunctionDecl} {locals : Bindings Value} {depth d n : Nat}

/-- A launch ends as the run of its coroutine does. -/
theorem perform_launch (runner : Runner Body Globals) (w : World Body Globals) :
    (decl.launch locals).perform runner w =
      runner.run 0 (w.spawn decl.name (.function decl) locals).1
        (w.spawn decl.name (.function decl) locals).2 :=
  Action.perform_run runner 0 _ _

/-- A launch goes into the body of its coroutine, with one step less. -/
theorem launch_enters (unit : CompiledUnit) (depth : Nat) (decl : FunctionDecl)
    (locals : Bindings Value) {w : World Body Globals} (hw : w.Idle) (n : Nat) :
    ∃ t c w', w'.Alone t [] [c] .start none ∧ w'.store = w.store ∧
      (∃ x, w'.handles.get? c.id = some x ∧ x.body = .function decl) ∧
      (decl.launch locals).perform (World.runner (unit.program.bodies depth) (n + 1)) w =
        World.close t c (World.proceed
          (unit.resumption depth (World.runner (unit.program.bodies depth) n)) t c ⟨0, locals⟩ n
          ((unit.asyncBody depth decl locals 0 decl.body).perform
            (World.runner (unit.program.bodies depth) n) w')) := by
  obtain ⟨t, c, w', hw', hstore, hbody, hrun⟩ :=
    hw.run_spawn (unit.program.bodies depth) decl.name (.function decl) locals n
  exact ⟨t, c, w', hw', hstore, hbody, (perform_launch _ _).trans hrun⟩

/-- Once the coroutine of a launch has ended, so has the run, if it has a step left. -/
theorem arrives_launch {resume : CoroutineRef → Input → World Body Globals →
      Except Abort Step × World Body Globals} {t m : Nat} {c : CoroutineRef}
    {w w' : World Body Globals} {e : Ending Value} {u : Except Abort Unit × World Body Globals}
    {r : Except Abort Value} (h : Reaches resume t c [] w m e u r w') :
    (World.close t c u).1 = .error .outOfFuel ∧ m = 0 ∨ Arrives (World.close t c u) e.1 e.2 := by
  cases hsplit : splitScript r with
  | error err =>
      obtain ⟨chain, hw'⟩ := h.idles
      rw [h.run, World.settled_host hsplit]
      obtain ⟨hr, hidle, hstore⟩ := hw'.close_error (c := c) err
      refine .inr ⟨?_, hstore.trans h.store, hidle⟩
      rw [hr, ← splitScript_eq_error hsplit]
      exact h.same
  | ok outcome =>
      obtain ⟨w₁, hw₁, hstore₁, hdrain⟩ := (h.alone outcome hsplit).settled_root resume hsplit
      rw [h.run, hdrain]
      cases m with
      | zero => exact .inl ⟨rfl, rfl⟩
      | succ m =>
          rw [hw₁.drain_nil]
          obtain ⟨hr, hidle, hstore⟩ := hw₁.close_ok (c := c)
          refine .inr ⟨?_, hstore.trans (hstore₁.trans h.store), hidle⟩
          rw [hr, ← splitScript_eq_ok hsplit]
          exact h.same

/-- **A launch within its bounds ends as the erased function does.** -/
theorem followed_launch (ht : unit.Transparent) (hdecl : decl ∈ unit.functions)
    (hl : unit.Tame locals) (hd : depth + n ≤ d + 1) :
    Followed unit.TameGlobals (World.runner (unit.program.bodies depth) n) Value
      (Value.Known unit.Keeps) (decl.launch locals) (unit.erasedBody d decl locals decl.body) := by
  intro w hw hg
  cases n with
  | zero =>
      rw [perform_launch]
      exact .inl (hw.run_zero (unit.program.bodies depth) decl.name (.function decl) locals)
  | succ n =>
      obtain ⟨t, c, w₁, hw₁, hstore, hbody, henters⟩ :=
        launch_enters unit depth decl locals hw n
      have hg₁ : unit.TameGlobals w₁.shared := by
        rw [show w₁.shared = w.shared from congrArg Prod.fst hstore]
        exact hg
      rw [henters, ← hstore]
      rcases forward ht (show depth + n ≤ d by omega) hdecl hl
          (show decl.body.drop 0 = decl.body from rfl) t c [] w₁ ⟨0, locals⟩ hw₁ hbody hg₁ with
        hout | ⟨e, m, r, w', -, hy, hr⟩
      · exact .inl (World.close_error_fst hout)
      · rcases arrives_launch hr with ⟨hout, -⟩ | ha
        · exact .inl hout
        · exact .inr ⟨e.1, e.2, hy.exec, hy.tame, hy.value, ha⟩

/-- **What an erased function comes to a launch comes to** in some number of steps. -/
theorem performed_launch (ht : unit.Transparent) (hdecl : decl ∈ unit.functions)
    (hl : unit.Tame locals) (hd : d ≤ depth) :
    Performed unit.TameGlobals (World.runner (unit.program.bodies depth)) Value
      (Value.Known unit.Keeps) (decl.launch locals) (unit.erasedBody d decl locals decl.body) := by
  intro st hg
  obtain ⟨e, hy, hruns⟩ := backward (d := d) ht hdecl hl hg
    (show decl.body.drop 0 = decl.body from rfl)
  refine ⟨e.1, e.2, hy.exec, hy.tame, hy.value, fun hne => ?_⟩
  obtain ⟨k, hruns⟩ := hruns hne
  refine ⟨k + 2, fun n hn w hw hwst => ?_⟩
  -- one step for the start of the run, and one for the empty queue
  obtain ⟨m, rfl⟩ : ∃ m, n = m + 1 + k + 1 := ⟨n - k - 2, by omega⟩
  obtain ⟨t, c, w₁, hw₁, hstore, hbody, henters⟩ :=
    launch_enters unit depth decl locals hw (m + 1 + k)
  obtain ⟨r, w', hr⟩ := hruns depth hd (World.runner (unit.program.bodies depth) (m + 1 + k))
    (m + 1) t c [] w₁ ⟨0, locals⟩ hw₁ hbody (hstore.trans hwst)
  rw [henters]
  exact (arrives_launch hr).resolve_left fun h => by cases h.2

end CompiledUnit

namespace Program

variable {unit : CompiledUnit} {p : Program} {call : Calls} {scope : Scope} {st : Globals × Nat}

/-- One argument without keywords. -/
theorem evalArguments_single {outer : Option (List (String × Expr))} (h : outer.getD [] = [])
    (e : Expr) (site : Site) : p.evalArguments call scope [e] outer site =
      (p.evalExpr call scope (some site) e).bind fun v => .done (.ok ([v], [])) := by
  cases outer with
  | none => simp only [evalArguments, evalExprs, bind, pure, Action.bind_assoc, Action.bind]
  | some ks =>
      obtain rfl : ks = [] := h
      simp only [evalArguments, evalExprs, evalKeywords, bind, pure, Action.bind_assoc, Action.bind]

/-- The name `asyncio.run` stands for the builtin. -/
theorem leads_run (ht : unit.Transparent) (hg : unit.TameGlobals st.1)
    (hlocals : scope.locals.get? Builtin.run.name = none) {enclosing own : Option Site} :
    Action.Leads (unit.program.evalExpr call scope enclosing (.name Builtin.run.name own)) st
      (.done (.ok (.builtin .run))) st := by
  have hfunctions : unit.program.functions.get? Builtin.run.name = none := by
    cases h : unit.program.functions.get? Builtin.run.name with
    | none => rfl
    | some v =>
        obtain ⟨i, decl, -, hdecl, hname⟩ := mem_functions h
        exact (ht.named decl hdecl hname).elim
  have hlookup : Action.Leads (unit.program.lookup scope Builtin.run.name) st
      (.done (.ok (some (.builtin .run)))) st := by
    unfold lookup
    rw [hlocals]
    refine .read ?_
    rw [hg.unbound _ (.inr rfl), hfunctions]
    exact .refl _ _
  simp only [evalExpr]
  exact hlookup.bind _

/-- A launch goes on with the arguments of the function that it calls; it runs what the call comes to. -/
theorem leads_launch (ht : unit.Transparent) (hg : unit.TameGlobals st.1)
    (hlocals : unit.Tame scope.locals) {f : String} (hf : f ∈ unit.asyncNames) {fn : Value}
    (hfn : unit.program.functions.get? f = some fn) {enclosing own own' : Option Site}
    {args : List Expr} {keywords outer : Option (List (String × Expr))} {site site' : Site}
    (houter : outer.getD [] = []) :
    Action.Leads (unit.program.evalExpr call scope enclosing
        (.call (.name Builtin.run.name own) [.call (.name f own') args keywords site] outer site')) st
      ((unit.program.evalArguments call scope args keywords site).bind fun a =>
        ((call fn a.1 a.2).catchScript fun r =>
          .raise (r.within (unit.program.frame scope.name (operation fn) a.1 site))).bind fun v =>
            (call (.builtin .run) [v] []).catchScript fun r => .raise (r.within
              (unit.program.frame scope.name (operation (.builtin .run)) [v] site'))) st := by
  rw [evalExpr_call, evalArguments_single houter]
  simp only [Action.bind_assoc]
  refine ((leads_run ht hg (hlocals.unbound _ (.inr rfl))).bind _).trans ?_
  rw [← Action.bind_assoc]
  exact (leads_callee (hlocals.unbound _ (.inl hf)) (hg.unbound _ (.inl hf)) hfn).bind _

/-- Where launches are related to erased functions, so are the expressions of the module for them. -/
theorem launchesAgree (ht : unit.Transparent) {rel : ScriptRelation}
    (sim : Simulation unit.TameGlobals rel) (skips : Skips unit.TameGlobals rel) {depth d : Nat}
    (hlaunch : ∀ decl ∈ unit.functions, ∀ locals, unit.Tame locals →
      rel Value (Value.Known unit.Keeps) (decl.launch locals)
        (unit.erasedBody d decl locals decl.body)) :
    LaunchesAgree unit rel unit.program unit.erased (unit.program.callValue (depth + 1))
      (unit.erased.callValue (d + 1)) ⟨CompiledUnit.moduleFrame, [], .module⟩
      ⟨CompiledUnit.moduleFrame, [], .module⟩ := by
  intro f own own' args keywords outer site site' enclosing hf houter hargs
  obtain ⟨i, decl, hget, hdecl, hasync, rfl⟩ := functions_async ht hf
  have hget' : unit.erased.functions.get? decl.name = some (.function i decl.erase) := by
    rw [functions_erase, hget]
    rfl
  refine skips.leads (fun st hg => leads_launch ht hg .nil hf hget houter)
    (fun st hg => leads_callee rfl (hg.unbound _ (.inl hf)) hget') (sim.bind hargs fun a ha => ?_)
  cases hb : decl.bindParams a.1 a.2 with
  | error failure =>
      rw [callValue_error hb, callValue_error ((decl.erase_bindParams a.1 a.2).trans hb)]
      exact sim.error (.script ((Record.Same.refl _).within rfl))
  | ok locals =>
      rw [callValue_async hb hasync, callValue_erase hb]
      -- all coroutines are of one kind, which is all that the frame says of them
      exact sim.passed (unit.program.frame CompiledUnit.moduleFrame (operation (.builtin .run))
          [.coroutine ⟨0, decl.name⟩] site')
        (unit.erased.frame CompiledUnit.moduleFrame (operation (.function i decl.erase)) a.1 site) rfl
        (hlaunch decl hdecl locals (ht.tame_bindParams hdecl ha.1 ha.2 hb))

/-- At the bound on nested calls there are no launches. -/
theorem launchesAgree_stuck (ht : unit.Transparent) {rel : ScriptRelation}
    (sim : Simulation unit.TameGlobals rel) (skips : Skips unit.TameGlobals rel) {depth d : Nat}
    (hstuck : (depth = 0 ∧ ∀ a : Script Value, rel Value (Value.Known unit.Keeps) (.abort .outOfFuel) a) ∨
      d = 0 ∧ ∀ a : Script Value, rel Value (Value.Known unit.Keeps) a (.abort .outOfFuel)) :
    LaunchesAgree unit rel unit.program unit.erased (unit.program.callValue depth)
      (unit.erased.callValue d) ⟨CompiledUnit.moduleFrame, [], .module⟩
      ⟨CompiledUnit.moduleFrame, [], .module⟩ := by
  intro f own own' args keywords outer site site' enclosing hf houter hargs
  obtain ⟨i, decl, hget, hdecl, hasync, rfl⟩ := functions_async ht hf
  have hget' : unit.erased.functions.get? decl.name = some (.function i decl.erase) := by
    rw [functions_erase, hget]
    rfl
  refine skips.leads (fun st hg => leads_launch ht hg .nil hf hget houter)
    (fun st hg => leads_callee rfl (hg.unbound _ (.inl hf)) hget') (sim.bind hargs fun a ha => ?_)
  rcases hstuck with ⟨rfl, h⟩ | ⟨rfl, h⟩
  · exact h _
  · exact h _

variable {depth d : Nat}

/-- **Forwards**: what a module comes to within its bounds is what is left of the module comes to, at a depth
that covers the calls and the steps. -/
theorem followed_runModule (ht : unit.Transparent) {n : Nat} (hd : depth + n ≤ d) :
    Followed unit.TameGlobals (World.runner (unit.program.bodies depth) n) Value
      (Value.Known unit.Keeps) (unit.program.runModule depth) (unit.erased.runModule d) := by
  have sim := Followed.simulation unit.TameGlobals (World.runner (unit.program.bodies depth) n)
  have skips := Followed.skips unit.TameGlobals (World.runner (unit.program.bodies depth) n)
  have hcalls := callsAgree ht (alike_erase ht) (Nat.le_trans (Nat.le_add_right depth n) hd)
  refine agree_runStatements sim ⟨alike_erase ht, ht.run_notMem,
    fun fn args kwargs hfn ha hk => .of_mirrored (hcalls fn args kwargs hfn ha hk),
    alike_module unit, fun _ => ?_⟩ (show Value.none.Known unit.Keeps from trivial) ht.kept_of_module
  cases depth with
  | zero => exact launchesAgree_stuck ht sim skips (.inl ⟨rfl, fun _ _ _ _ => .inl rfl⟩)
  | succ depth =>
      obtain ⟨d, rfl⟩ : ∃ d', d = d' + 1 := ⟨d - 1, by omega⟩
      exact launchesAgree ht sim skips fun decl hdecl locals hl => CompiledUnit.followed_launch ht hdecl hl hd

/-- **Backwards**: what is left of a module comes to at some depth the module comes to, with as many calls and
some number of steps. -/
theorem performed_runModule (ht : unit.Transparent) (hd : d ≤ depth) :
    Performed unit.TameGlobals (World.runner (unit.program.bodies depth)) Value
      (Value.Known unit.Keeps) (unit.program.runModule depth) (unit.erased.runModule d) := by
  have sim := Performed.simulation unit.TameGlobals (World.runner (unit.program.bodies depth))
  have skips := Performed.skips unit.TameGlobals (World.runner (unit.program.bodies depth))
  have hcalls := callsAgree ht (alike_erase ht).symm hd
  refine agree_runStatements sim ⟨alike_erase ht, ht.run_notMem,
    fun fn args kwargs hfn ha hk => .of_mirrored (hcalls fn args kwargs hfn ha hk),
    alike_module unit, fun _ => ?_⟩ (show Value.none.Known unit.Keeps from trivial) ht.kept_of_module
  cases d with
  | zero =>
      exact launchesAgree_stuck ht sim skips (.inr ⟨rfl, fun a st hst =>
        ⟨.error .outOfFuel, st, rfl, hst, nofun, fun h => (h rfl).elim⟩⟩)
  | succ d =>
      obtain ⟨depth, rfl⟩ : ∃ depth', depth = depth' + 1 := ⟨depth - 1, by omega⟩
      exact launchesAgree ht sim skips fun decl hdecl locals hl =>
        CompiledUnit.performed_launch ht hdecl hl (by omega)

end Program

end Coroutines
