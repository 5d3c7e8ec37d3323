import Coroutines.Proofs.Tracebacks.Evaluation

/-!
# Calls and their scopes

A builtin hands on the exceptions of what it calls and runs.  A plain function puts the frame of its scope
outside those of the call inside it that failed, by induction on its statements; so calls raise exceptions
with a frame for each scope inside them, by induction on how deep they nest.
-/

namespace Coroutines

variable {unit : CompiledUnit} {k : Calling} {runs : CoroutineRef → LiveScopes}

/-- Runs raise exceptions with the frames of the scopes inside them. -/
def CompiledUnit.RunsTell (unit : CompiledUnit) (runner : Runner Body Globals)
    (runs : CoroutineRef → LiveScopes) : Prop :=
  ∀ {c : CoroutineRef} {w : World Body Globals} {r : Record}, unit.Fit w →
    (runner.run 0 c w).1 = .error (.script r) → r.scopes = runs c w

/-! ### Builtins -/

namespace Builtin

open Program

theorem tells_makeRange (hosts : unit.Hosts k.runner) (args : List Value) :
    Tells unit k.runner [] (makeRange args) fun _ => [] := by
  refine .bind_nil hosts (.ofExcept (Dynamic.indices args)) (Dynamic.indices args).upholds
    (Action.orderly_done _) fun bounds _ => ?_
  simp only
  split
  · exact .raise rfl
  · exact ⟨fun _ e => by cases e⟩

theorem tells_mapRows (hk : k.Faithful unit) {fn : Value} (hfn : fn.Known unit.Owns)
    {table : List (List Value)} (h : ∀ row ∈ table, ∀ v ∈ row, v.Known unit.Owns) :
    Tells unit k.runner [] (mapRows k.call fn table) (rowsScopes k fn table) := by
  induction table with
  | nil => exact .value _
  | cons row rest ih =>
      obtain ⟨hrow, hrest⟩ := List.forall_mem_cons.mp h
      exact (hk.tells hfn hrow .nil).bind hk.hosts (hk.uphold hfn hrow .nil) (hk.orderly fn row [])
        fun v _ => (ih hrest).map _

/-- Without a predicate nothing is called. -/
theorem tells_filterItems_none {runner : Runner Body Globals} {call : Calls} {scopes : LiveScopes}
    (items : List Value) : Tells unit runner [] (filterItems call .none items) scopes := by
  induction items with
  | nil => exact .value _
  | cons v rest ih => exact ih.map _

theorem tells_filterItems (hk : k.Faithful unit) {predicate : Value} (hp : predicate.Known unit.Owns)
    (hne : predicate ≠ .none) {items : List Value} (h : ∀ v ∈ items, v.Known unit.Owns) :
    Tells unit k.runner [] (filterItems k.call predicate items) (itemsScopes k predicate items) := by
  induction items with
  | nil => exact .value _
  | cons v rest ih =>
      obtain ⟨hv, hrest⟩ := List.forall_mem_cons.mp h
      have hone : ∀ x ∈ [v], x.Known unit.Owns := List.forall_mem_singleton.mpr hv
      simp only [filterItems, itemsScopes]
      exact (hk.tells hp hone .nil).bind hk.hosts (hk.uphold hp hone .nil)
        (hk.orderly predicate [v] []) fun keep _ => (ih hrest).map _

/-- The members of a group are found without a failure. -/
theorem perform_members (runner : Runner Body Globals) (args : List Value) (w : World Body Globals) :
    ∃ cs w', (members args).perform runner w = (.ok cs, w') := by
  induction args generalizing w with
  | nil => exact ⟨_, _, rfl⟩
  | cons v rest ih =>
      -- one more coroutine in front
      have hmore : ∀ (c : CoroutineRef) (w : World Body Globals), ∃ cs w',
          ((members rest).bind fun cs => .done (.ok (c :: cs))).perform runner w = (.ok cs, w') :=
        fun c w => by
          obtain ⟨cs, w', h⟩ := ih w
          rw [Action.perform_bind, h]
          exact ⟨_, _, rfl⟩
      cases v with
      | coroutine c => exact hmore c w
      | joinGroup g => exact hmore _ _
      | _ => exact ih w

theorem tells_compute (hk : k.Faithful unit) (hruns : unit.RunsTell k.runner runs) (b : Builtin)
    {args : List Value} (h : ∀ v ∈ args, v.Known unit.Owns) (kwargs : Bindings Value) :
    Tells unit k.runner [] (b.compute k.call kwargs args) (executeScopes k runs args b) := by
  have hhead := List.known_headD h
  cases b with
  | abs => exact .ofExcept (Dynamic.absolute (P := unit.Owns) _)
  | len => exact .ofExcept (Dynamic.length (P := unit.Owns) _)
  | range => exact tells_makeRange hk.hosts args
  | map =>
      refine (tells_mapRows hk hhead (known_rows _ fun column hc => ?_)).map _
      obtain ⟨v, hv, rfl⟩ := List.mem_map.mp hc
      exact (List.known_tail h v hv).items
  | filter =>
      have hitems := (List.known_headD (List.known_tail h)).items
      simp only [compute, executeScopes]
      split
      · next hc hp =>
          rw [hp]
          exact (tells_filterItems_none _).map _
      · next hc =>
          rw [if_pos hc]
          refine (tells_filterItems hk hhead (fun hnone => ?_) hitems).map _
          rw [hnone] at hc
          cases hc
      · next hc _ =>
          rw [if_neg (by simpa using hc)]
          exact .raise rfl
  | sum =>
      simp only [compute]
      split
      · exact .raise rfl
      · have hstart : (args.tail.head?.getD (.int (.ofNat 0))).Known unit.Owns := by
          cases hs : args.tail.head? with
          | none => trivial
          | some v => exact h v (List.mem_of_mem_tail (List.mem_of_mem_head? hs))
        exact .ofExcept (Dynamic.sumItems hstart hhead.items)
  | run =>
      simp only [compute, executeScopes]
      cases args.headD .none with
      | coroutine c =>
          refine ⟨fun {w r} hw e => hruns hw ?_⟩
          rwa [Action.perform_run] at e
      | _ => exact .raise rfl
  | gather =>
      refine .bind_nil hk.hosts ⟨fun {w r} _ e => ?_⟩ (upholds_members args)
        (orderly_members args) fun cs _ => ⟨fun {w r} _ e => ?_⟩
      · obtain ⟨cs, w', h⟩ := perform_members k.runner args w
        rw [h] at e
        cases e
      · simp only [Action.perform] at e
        split at e
        · cases e
        · cases e
          rfl
  | print =>
      refine .modify hk.hosts (fun g hg => ?_) (.ofExcept (Dynamic.printed (P := unit.Owns) args))
      exact hg
  | _ => exact ⟨fun _ e => by cases e⟩

/-- **Builtins hand on the exceptions of what they call and run.** -/
theorem tells_execute (hk : k.Faithful unit) (hruns : unit.RunsTell k.runner runs) (b : Builtin)
    {args : List Value} (h : ∀ v ∈ args, v.Known unit.Owns) (kwargs : Bindings Value) :
    Tells unit k.runner [] (b.execute k.call kwargs args) (executeScopes k runs args b) := by
  unfold execute
  split
  · exact ⟨fun _ e => by cases e⟩
  · exact tells_compute hk hruns b h kwargs

theorem tells_invoke (hk : k.Faithful unit) (hruns : unit.RunsTell k.runner runs) (b : Builtin)
    {args : List Value} (h : ∀ v ∈ args, v.Known unit.Owns) (kwargs : Bindings Value) :
    Tells unit k.runner [] (b.invoke k.call args kwargs) (builtinScopes k runs b args kwargs) := by
  unfold invoke Signature.guard builtinScopes
  cases b.signature.check args kwargs with
  | some f => exact .raise rfl
  | none => exact tells_execute hk hruns b h kwargs

end Builtin

namespace Program

variable {owner : Option FunctionDecl} {scope : Scope} {fn : FunctionDecl}

/-! ### Statements -/

theorem tells_execStmt (hu : unit.Checked) (hk : k.Faithful unit) (hs : scope.Checked unit owner)
    {s : Stmt} (h : unit.context.stmt owner (CompiledUnit.ownNames owner) s = []) :
    Tells unit k.runner [scope.name] ((Program.ofUnit unit).execStmt k.call scope s)
      ((Program.ofUnit unit).stmtScopes k scope s) := by
  cases s with
  | assign name value own =>
      simp only [CheckContext.stmt, List.append_eq_nil_iff] at h
      exact (tells_evalExpr hu hk hs value h.1 h.2).map _
  | expr value own =>
      simp only [CheckContext.stmt, List.append_eq_nil_iff] at h
      exact (tells_evalExpr hu hk hs value h.1 h.2).map _
  | ret value own =>
      obtain ⟨hmode, hown, hvalue⟩ := of_ret_eq_nil hs h
      simp only [execStmt, if_neg hmode]
      cases value with
      | none => exact .value _
      | some e => exact (tells_evalExpr hu hk hs e hown hvalue).map _
  | assert test message own =>
      simp only [CheckContext.stmt, List.append_eq_nil_iff] at h
      obtain ⟨⟨hown, htest⟩, hmessage⟩ := h
      have hhere : unit.context.site? (some own) = [] := hown
      refine evalExpr_bind hu hk hs hhere htest (tells_evalExpr hu hk hs test hhere htest)
        fun v _ => ?_
      simp only
      split
      · exact .value _
      · cases message with
        | none => exact .raise rfl
        | some e =>
            exact evalExpr_bind hu hk hs hhere hmessage (tells_evalExpr hu hk hs e hhere hmessage)
              fun m _ => by rcases assertion_eq m with he | he <;> rw [he]; exacts [.tooLarge, .raise rfl]
  | await target value own =>
      obtain ⟨hasync, hown, hvalue⟩ := of_await_eq_nil hs h
      have hhere : unit.context.site? (some own) = [] := hown
      refine evalExpr_bind hu hk hs hhere hvalue (tells_evalExpr hu hk hs value hhere hvalue)
        fun v _ => ?_
      rw [if_neg (not_not.mpr hasync)]
      split
      · exact .value _
      · exact .value _
      · exact .raise rfl

/-- Work goes on after a statement. -/
theorem execStmt_bind {γ : Type} (hu : unit.Checked) (hk : k.Faithful unit)
    (hs : scope.Checked unit owner) {s : Stmt}
    (h : unit.context.stmt owner (CompiledUnit.ownNames owner) s = []) {f : Completion → Script γ}
    {rest : Completion → LiveScopes}
    (hf : ∀ c, c.Known unit.Owns → Tells unit k.runner [scope.name] (f c) (rest c)) :
    Tells unit k.runner [scope.name] (((Program.ofUnit unit).execStmt k.call scope s).bind f)
      (k.follow ((Program.ofUnit unit).execStmt k.call scope s)
        ((Program.ofUnit unit).stmtScopes k scope s) rest) :=
  (tells_execStmt hu hk hs h).bind hk.hosts (upholds_execStmt hu hk.uphold hs h)
    (orderly_execStmt hk.orderly scope s) hf

/-- **An exception of a plain function has the frame of its scope**, and those of the call inside it that
failed. -/
theorem tells_runBody (hu : unit.Checked) (hk : k.Faithful unit) (hs : scope.Checked unit (some fn))
    {stmts : List Stmt}
    (h : ∀ s ∈ stmts, unit.context.stmt (some fn) (CompiledUnit.ownNames (some fn)) s = []) :
    Tells unit k.runner [scope.name] ((Program.ofUnit unit).runBody k.call scope stmts)
      ((Program.ofUnit unit).stmtsScopes k scope stmts) := by
  induction stmts generalizing scope with
  | nil => exact .value _
  | cons s rest ih =>
      obtain ⟨hstmt, hrest⟩ := List.forall_mem_cons.mp h
      refine execStmt_bind hu hk hs hstmt fun c hc => ?_
      cases c with
      | ret v => exact .value v
      | await target => exact .host _
      | next v => exact ih (hs.after hc) hrest
      | bind name v => exact ih (hs.after hc) hrest

/-! ### Calls -/

theorem tells_callFunction (hu : unit.Checked) (hk : k.Faithful unit) (hfn : fn ∈ unit.functions)
    {args : List Value} {kwargs : Bindings Value} (ha : ∀ v ∈ args, v.Known unit.Owns)
    (hkwargs : kwargs.All (Value.Known unit.Owns)) :
    Tells unit k.runner [] ((Program.ofUnit unit).callFunction k.call fn args kwargs)
      ((Program.ofUnit unit).functionScopes k fn args kwargs) := by
  unfold callFunction functionScopes
  cases e : fn.bindParams args kwargs with
  | error f => exact .raise rfl
  | ok locals =>
      obtain ⟨hvalues, hparams⟩ := FunctionDecl.bindParams_all ha hkwargs e
      simp only
      split
      · exact ⟨fun _ e => by cases e⟩
      · next hsync =>
          have hbody := tells_runBody hu hk (.function hfn (if_neg hsync).symm hvalues hparams)
            (hu.function hfn)
          exact ⟨fun hw e => hbody.escaped hw e⟩

/-- **Calls raise exceptions with a frame for each scope inside them**, by induction on how deep they
nest. -/
theorem faithful_calling (hu : unit.Checked) {runner : Runner Body Globals} (hosts : unit.Hosts runner)
    (hruns : unit.RunsTell runner runs) (depth : Nat) :
    ((Program.ofUnit unit).calling depth runner runs).Faithful unit := by
  induction depth with
  | zero =>
      exact ⟨hosts, callsUphold hu 0, orderly_callValue (Program.ofUnit unit) 0, fun _ _ _ => ⟨fun _ e => by cases e⟩⟩
  | succ depth ih =>
      refine ⟨hosts, callsUphold hu (depth + 1), orderly_callValue (Program.ofUnit unit) (depth + 1), ?_⟩
      intro fn args kwargs hfn ha hkwargs
      cases fn with
      | builtin b => exact Builtin.tells_invoke ih hruns b ha kwargs
      | function i decl => exact tells_callFunction hu ih hfn ha hkwargs
      | _ => exact .raise rfl

/-! ### The module -/

/-- An exception of the module has the frame of the module, and those of the call inside it that failed. -/
theorem tells_runStatements (hu : unit.Checked) (hk : k.Faithful unit) (last : Value)
    {stmts : List Stmt}
    (h : ∀ s ∈ stmts, unit.context.stmt none (CompiledUnit.ownNames none) s = []) :
    Tells unit k.runner [CompiledUnit.moduleFrame]
      ((Program.ofUnit unit).runStatements k.call last stmts)
      ((Program.ofUnit unit).moduleScopes k stmts) := by
  induction stmts generalizing last with
  | nil => exact .value _
  | cons s rest ih =>
      obtain ⟨hstmt, hrest⟩ := List.forall_mem_cons.mp h
      refine execStmt_bind hu hk .module hstmt fun c hc => ?_
      cases c with
      | next v => exact ih v hrest
      | bind name v =>
          exact .modify hk.hosts (fun g hg =>
            ⟨hg.1.set name hc, fun x hx => Bindings.has_set_of_has v (hg.2 x hx)⟩) (ih .none hrest)
      | ret v => exact .host _
      | await target => exact .host _

end Program

end Coroutines
