import Coroutines.Proofs.Erasure.Simulation
import Coroutines.Proofs.Erasure.Units
import Coroutines.Proofs.Checked.Statements

/-!
# Evaluation of an erased unit

What a unit and the erased one evaluate besides awaits is simulated step by step: names outside the
async ones stand for the same values in both, builtins do the same with them, and what is left of an
expression after erasure is evaluated in the same order.  The lemmas hold of any simulation; what a
launch of a coroutine does is left to each.
-/

namespace Coroutines

namespace CompiledUnit

variable {unit : CompiledUnit}

/-- The names that are kept for async functions and for running them. -/
def Reserved (unit : CompiledUnit) (n : String) : Prop := n ∈ unit.asyncNames ∨ n = Builtin.run.name

/-- The values that are the same in a unit and in the erased one: its plain functions, and the builtins
that have nothing to do with coroutines. -/
def Keeps (unit : CompiledUnit) : Value → Prop
  | .function _ decl => decl ∈ unit.functions ∧ decl.isAsync = false
  | .builtin b => b ≠ .run ∧ b ≠ .gather
  | _ => False

/-- Bindings of values that erasure keeps, none of them under a reserved name. -/
structure Tame (unit : CompiledUnit) (b : Bindings Value) : Prop where
  values : b.All (Value.Known unit.Keeps)
  unbound : ∀ n, unit.Reserved n → b.get? n = none

theorem Tame.nil : unit.Tame [] := ⟨.nil, fun _ _ => rfl⟩

theorem Tame.set {b : Bindings Value} (h : unit.Tame b) {n : String} (hn : ¬unit.Reserved n)
    {v : Value} (hv : v.Known unit.Keeps) : unit.Tame (b.set n v) where
  values := h.values.set n hv
  unbound m hm := by
    rw [Bindings.get?_set_of_ne b v fun e : n = m => hn (e ▸ hm)]
    exact h.unbound m hm

/-- The globals of a unit and of the erased one. -/
def TameGlobals (unit : CompiledUnit) (g : Globals) : Prop := unit.Tame g.bindings

end CompiledUnit

/-- Two scopes of one name with the same tame bindings; both are the module's, or neither is. -/
structure Scope.Alike (unit : CompiledUnit) (scope scope' : Scope) : Prop where
  name : scope.name = scope'.name
  locals : scope.locals = scope'.locals
  mode : scope.mode = .module ↔ scope'.mode = .module
  tame : unit.Tame scope.locals

/-- Two programs with the same functions under open names. -/
def Program.Alike (unit : CompiledUnit) (p p' : Program) : Prop :=
  ∀ n, isOpen unit.asyncNames n = true → p.functions.get? n = p'.functions.get? n ∧
    ∀ v, p.functions.get? n = some v → v.Known unit.Keeps

/-- Calls of kept values are simulated. -/
def CallsAgree (unit : CompiledUnit) (rel : ScriptRelation) (call call' : Calls) : Prop :=
  ∀ (fn : Value) (args : List Value) (kwargs : Bindings Value), fn.Known unit.Keeps →
    (∀ v ∈ args, v.Known unit.Keeps) → kwargs.All (Value.Known unit.Keeps) →
    rel Value (Value.Known unit.Keeps) (call fn args kwargs) (call' fn args kwargs)

section

variable {unit : CompiledUnit} {rel : ScriptRelation} {call call' : Calls} {α : Type}
  {post : α → Prop}

/-! ### Builtins -/

theorem Simulation.abort {ok : Globals → Prop} (sim : Simulation ok rel) (e : Abort) :
    rel α post (.abort e) (.abort e) := sim.error (.refl e)

theorem Simulation.ofExcept {ok : Globals → Prop} (sim : Simulation ok rel) {result : Except Abort α}
    (h : Dynamic post result) : rel α post (.ofExcept result) (.ofExcept result) := by
  cases result with
  | ok a => exact sim.value h
  | error e => exact sim.abort e

namespace Builtin

variable (sim : Simulation unit.TameGlobals rel)
include sim

theorem agree_makeRange (args : List Value) :
    rel Value (Value.Known unit.Keeps) (makeRange args) (makeRange args) := by
  refine sim.bind (sim.ofExcept (Dynamic.indices args)) fun bounds _ => ?_
  simp only
  split
  · exact sim.abort _
  · exact sim.identity fun n => sim.value trivial

variable (hcall : CallsAgree unit rel call call')
include hcall

theorem agree_mapRows {fn : Value} (hfn : fn.Known unit.Keeps) {table : List (List Value)}
    (h : ∀ row ∈ table, ∀ v ∈ row, v.Known unit.Keeps) :
    rel (List Value) (fun vs => ∀ v ∈ vs, v.Known unit.Keeps) (mapRows call fn table)
      (mapRows call' fn table) := by
  induction table with
  | nil => exact sim.value fun v hv => by cases hv
  | cons row rest ih =>
      obtain ⟨hrow, hrest⟩ := List.forall_mem_cons.mp h
      exact sim.bind (hcall _ _ _ hfn hrow .nil) fun v hv => sim.bind (ih hrest) fun vs hvs =>
        sim.value (List.forall_mem_cons.mpr ⟨hv, hvs⟩)

theorem agree_filterItems {predicate : Value} (hp : predicate.Known unit.Keeps) {items : List Value}
    (h : ∀ v ∈ items, v.Known unit.Keeps) :
    rel (List Value) (fun vs => ∀ v ∈ vs, v.Known unit.Keeps) (filterItems call predicate items)
      (filterItems call' predicate items) := by
  induction items with
  | nil => exact sim.value fun v hv => by cases hv
  | cons item rest ih =>
      obtain ⟨hitem, hrest⟩ := List.forall_mem_cons.mp h
      -- whatever tells whether the item is kept
      have hkeep : ∀ {x x' : Script Value}, rel Value (Value.Known unit.Keeps) x x' →
          rel (List Value) (fun vs => ∀ v ∈ vs, v.Known unit.Keeps)
            (x.bind fun keep => (filterItems call predicate rest).bind fun vs =>
              .done (.ok (if keep.truthy then item :: vs else vs)))
            (x'.bind fun keep => (filterItems call' predicate rest).bind fun vs =>
              .done (.ok (if keep.truthy then item :: vs else vs))) := by
        intro x x' hx
        refine sim.bind hx fun keep _ => sim.bind (ih hrest) fun vs hvs => sim.value ?_
        split
        · exact List.forall_mem_cons.mpr ⟨hitem, hvs⟩
        · exact hvs
      simp only [filterItems]
      split
      · exact hkeep (sim.value (x := item) hitem)
      · exact hkeep (hcall _ _ _ hp (List.forall_mem_singleton.mpr hitem) .nil)

theorem agree_compute {b : Builtin} (hrun : b ≠ .run) (hgather : b ≠ .gather) {args : List Value}
    (h : ∀ v ∈ args, v.Known unit.Keeps) (kwargs : Bindings Value) :
    rel Value (Value.Known unit.Keeps) (b.compute call kwargs args) (b.compute call' kwargs args) := by
  have hhead := List.known_headD h
  cases b with
  | abs => exact sim.ofExcept (Dynamic.absolute _)
  | len => exact sim.ofExcept (Dynamic.length _)
  | list =>
      refine sim.value (Value.allKnown_iff.mpr fun v hv => ?_)
      cases args with
      | nil => cases hv
      | cons a rest => exact hhead.items v hv
  | range => exact agree_makeRange sim args
  | map =>
      refine sim.bind (agree_mapRows sim hcall hhead (known_rows _ fun column hc => ?_)) fun vs hvs =>
        sim.value (Value.allKnown_iff.mpr hvs)
      obtain ⟨v, hv, rfl⟩ := List.mem_map.mp hc
      exact (List.known_tail h v hv).items
  | filter =>
      have hitems := (List.known_headD (List.known_tail h)).items
      have hlist := sim.bind (agree_filterItems sim hcall hhead hitems) fun vs hvs =>
        sim.value (show (Value.list vs).Known unit.Keeps from Value.allKnown_iff.mpr hvs)
      simp only [compute]
      split
      · exact hlist
      · exact hlist
      · exact sim.abort _
  | sum =>
      simp only [compute]
      split
      · exact sim.abort _
      · refine sim.ofExcept (Dynamic.sumItems ?_ hhead.items)
        cases hs : args.tail.head? with
        | none => trivial
        | some v => exact h v (List.mem_of_mem_tail (List.mem_of_mem_head? hs))
  | any => exact sim.value trivial
  | all => exact sim.value trivial
  | print => exact sim.modify (fun _ hg => hg) (sim.ofExcept (Dynamic.printed args))
  | run => exact (hrun rfl).elim
  | gather => exact (hgather rfl).elim

/-- **Builtins are simulated** if the calls that they make are. -/
theorem agree_execute {b : Builtin} (hrun : b ≠ .run) (hgather : b ≠ .gather) {args : List Value}
    (h : ∀ v ∈ args, v.Known unit.Keeps) (kwargs : Bindings Value) :
    rel Value (Value.Known unit.Keeps) (b.execute call kwargs args) (b.execute call' kwargs args) := by
  unfold execute
  split
  · exact sim.abort _
  · exact agree_compute sim hcall hrun hgather h kwargs

theorem agree_invoke {b : Builtin} (hrun : b ≠ .run) (hgather : b ≠ .gather) {args : List Value}
    (h : ∀ v ∈ args, v.Known unit.Keeps) (kwargs : Bindings Value) :
    rel Value (Value.Known unit.Keeps) (b.invoke call args kwargs) (b.invoke call' args kwargs) := by
  unfold invoke Signature.guard
  split
  · exact sim.abort _
  · exact agree_execute sim hcall hrun hgather h kwargs

end Builtin

/-! ### Expressions -/

namespace Program

/-- Evaluates the arguments of a call. -/
def evalArguments (p : Program) (call : Calls) (scope : Scope) (args : List Expr)
    (keywords : Option (List (String × Expr))) (site : Site) :
    Script (List Value × Bindings Value) := do
  let vs ← p.evalExprs call scope (some site) args
  let kwargs ← match keywords with
    | some ks => p.evalKeywords call scope site [] ks
    | none => pure []
  pure (vs, kwargs)

/-- A call evaluates what it calls, then its arguments. -/
theorem evalExpr_call (p : Program) (call : Calls) (scope : Scope) (enclosing : Option Site)
    (callee : Expr) (args : List Expr) (keywords : Option (List (String × Expr))) (site : Site) :
    p.evalExpr call scope enclosing (.call callee args keywords site) =
      (p.evalExpr call scope (some site) callee).bind fun fn =>
        (p.evalArguments call scope args keywords site).bind fun a =>
          (call fn a.1 a.2).catchScript fun r =>
            .raise (r.within (p.frame scope.name (operation fn) a.1 site)) := by
  cases keywords with
  | none =>
      simp only [evalExpr, evalArguments, bind, pure, Action.bind_assoc, Action.bind]
  | some ks =>
      simp only [evalExpr, evalArguments, bind, pure, Action.bind_assoc, Action.bind]

/-- The arguments of a call are kept by erasure. -/
def KeepsArguments (unit : CompiledUnit) (a : List Value × Bindings Value) : Prop :=
  (∀ v ∈ a.1, v.Known unit.Keeps) ∧ a.2.All (Value.Known unit.Keeps)

variable {p p' : Program} {scope scope' : Scope} {launches : Bool}

/-- What is left to each simulation: that launching a coroutine simulates the call that is left of it,
if the evaluation of its arguments does. -/
def LaunchesAgree (unit : CompiledUnit) (rel : ScriptRelation) (p p' : Program) (call call' : Calls)
    (scope scope' : Scope) : Prop :=
  ∀ {f : String} {own own' : Option Site} {args : List Expr}
    {keywords outer : Option (List (String × Expr))} {site site' : Site} {enclosing : Option Site},
    f ∈ unit.asyncNames → outer.getD [] = [] →
    rel _ (KeepsArguments unit) (p.evalArguments call scope args keywords site)
      (p'.evalArguments call' scope' (Expr.eraseAll args) (keywords.map Expr.eraseKeywords) site) →
    rel Value (Value.Known unit.Keeps)
      (p.evalExpr call scope enclosing
        (.call (.name Builtin.run.name own) [.call (.name f own') args keywords site] outer site'))
      (p'.evalExpr call' scope' enclosing
        (.call (.name f own') (Expr.eraseAll args) (keywords.map Expr.eraseKeywords) site))

/-- What the two sides of a simulation evaluate with. -/
structure Evaluates (unit : CompiledUnit) (rel : ScriptRelation) (launches : Bool) (p p' : Program)
    (call call' : Calls) (scope scope' : Scope) : Prop where
  program : Alike unit p p'
  named : Builtin.run.name ∉ unit.asyncNames
  calls : CallsAgree unit rel call call'
  scopes : scope.Alike unit scope'
  launch : launches = true → LaunchesAgree unit rel p p' call call' scope scope'

section

variable (sim : Simulation unit.TameGlobals rel)
include sim

theorem agree_lookup (hp : Alike unit p p') (hs : scope.Alike unit scope') {n : String}
    (hn : isOpen unit.asyncNames n = true) :
    rel (Option Value) (fun v => ∀ x, v = some x → x.Known unit.Keeps) (p.lookup scope n)
      (p'.lookup scope' n) := by
  unfold lookup
  rw [← hs.locals]
  split
  · next v hl => exact sim.value fun x e => Option.some.inj e ▸ hs.tame.values.get? hl
  · refine sim.read fun g hg => ?_
    obtain ⟨hfunctions, hkept⟩ := hp n hn
    rw [← hfunctions]
    refine sim.value fun x hx => ?_
    simp only [Option.orElse_eq_orElse, Option.orElse_eq_or, Option.or_eq_some_iff] at hx
    rcases hx with hx | ⟨-, hx | ⟨-, hx⟩⟩
    · exact hg.values.get? hx
    · exact hkept x hx
    · obtain ⟨b, hb, rfl⟩ := Option.map_eq_some_iff.mp hx
      have hname : b.name = n := by
        unfold Builtin.ofName? at hb
        exact of_decide_eq_true (List.find?_some hb :)
      simp only [isOpen, Bool.and_eq_true, decide_eq_true_eq] at hn
      exact ⟨fun e => hn.1.2 (hname.symm.trans (congrArg Builtin.name e)),
        fun e => hn.2 (hname.symm.trans (congrArg Builtin.name e))⟩

theorem agree_name (h : Evaluates unit rel launches p p' call call' scope scope')
    {enclosing own : Option Site} {n : String} (hn : isOpen unit.asyncNames n = true) :
    rel Value (Value.Known unit.Keeps) (p.evalExpr call scope enclosing (.name n own))
      (p'.evalExpr call' scope' enclosing (.name n own)) := by
  simp only [evalExpr]
  refine sim.bind (agree_lookup sim h.program h.scopes hn) fun v hv => ?_
  cases v with
  | some v => exact sim.value (hv v rfl)
  | none =>
      refine sim.error (.script ⟨rfl, ?_⟩)
      cases own <;> cases enclosing <;> simp [frame, sourceSite, h.scopes.name]

end

mutual

/-- **Expressions are simulated by what is left of them**, by induction on the expression. -/
theorem agree_evalExpr (sim : Simulation unit.TameGlobals rel)
    (h : Evaluates unit rel launches p p' call call' scope scope') :
    ∀ {enclosing : Option Site} (e : Expr), e.erasable unit.asyncNames launches = true →
    rel Value (Value.Known unit.Keeps) (p.evalExpr call scope enclosing e)
      (p'.evalExpr call' scope' enclosing e.erase)
  | _, .const value float, _ => sim.value (known_constant _ float value)
  | _, .name _ _, he => agree_name sim h he
  | _, .list elements, he =>
      sim.bind (agree_evalExprs sim h elements he) fun _ hvs => sim.value (Value.allKnown_iff.mpr hvs)
  | _, .tuple elements, he =>
      sim.bind (agree_evalExprs sim h elements he) fun _ hvs => sim.value (Value.allKnown_iff.mpr hvs)
  | _, .binary op left right site, he => by
      simp only [Expr.erasable, Bool.and_eq_true] at he
      simp only [evalExpr, Expr.erase]
      refine sim.bind (agree_evalExpr sim h left he.1) fun a ha =>
        sim.bind (agree_evalExpr sim h right he.2) fun b hb => ?_
      have happly := Dynamic.apply op ha hb
      rcases hr : op.apply a b with (r | _ | _ | _ | _) | v <;> rw [hr] at happly
      · exact sim.error (.script ((Record.Same.refl r).within h.scopes.name))
      · exact sim.abort _
      · exact sim.abort _
      · exact sim.abort _
      · exact sim.abort _
      · exact sim.value happly
  | enclosing, .call callee args keywords site, he => by
      rcases Expr.of_erasable_call he with
        ⟨hcallee, hargs, hkeywords⟩ | ⟨hl, hrun, houter, hstarts⟩
      · rw [Expr.erase_call (Expr.ran?_of_isRun (Expr.isRun_of_erasable hcallee) _ _), evalExpr_call,
          evalExpr_call]
        refine sim.bind (agree_evalExpr sim h callee hcallee) fun fn hfn => ?_
        have harguments : rel _ (KeepsArguments unit) (p.evalArguments call scope args keywords site)
            (p'.evalArguments call' scope' (Expr.eraseAll args) (keywords.map Expr.eraseKeywords)
              site) := by
          cases keywords with
          | none =>
              exact sim.bind (agree_evalExprs sim h args hargs) fun vs hvs => sim.value ⟨hvs, .nil⟩
          | some ks =>
              exact sim.bind (agree_evalExprs sim h args hargs) fun vs hvs =>
                sim.bind (agree_evalKeywords sim h ks .nil (hkeywords ks rfl)) fun kw hkw =>
                  sim.value ⟨hvs, hkw⟩
        refine sim.bind harguments fun a ha => ?_
        exact sim.passed _ _ h.scopes.name (h.calls _ _ _ hfn ha.1 ha.2)
      · obtain ⟨f, own', as, ks, site', rfl, hf, harguments⟩ := agree_startsAll sim h args hstarts
        obtain ⟨own, rfl⟩ := Expr.exists_of_isRun hrun
        have hne : f ≠ Builtin.run.name := fun e => h.named (e ▸ hf)
        rw [Expr.erase_run hrun houter,
          Expr.erase_call (Expr.ran?_of_isRun (Expr.isRun_of_ne hne own') _ _)]
        exact h.launch hl hf houter harguments

theorem agree_evalExprs (sim : Simulation unit.TameGlobals rel)
    (h : Evaluates unit rel launches p p' call call' scope scope') :
    ∀ {enclosing : Option Site} (es : List Expr),
    Expr.erasableAll unit.asyncNames launches es = true →
    rel (List Value) (fun vs => ∀ v ∈ vs, v.Known unit.Keeps) (p.evalExprs call scope enclosing es)
      (p'.evalExprs call' scope' enclosing (Expr.eraseAll es))
  | _, [], _ => sim.value fun v hv => by cases hv
  | _, e :: rest, he => by
      simp only [Expr.erasableAll, Bool.and_eq_true] at he
      exact sim.bind (agree_evalExpr sim h e he.1) fun v hv =>
        sim.bind (agree_evalExprs sim h rest he.2) fun vs hvs =>
          sim.value (List.forall_mem_cons.mpr ⟨hv, hvs⟩)

theorem agree_evalKeywords (sim : Simulation unit.TameGlobals rel)
    (h : Evaluates unit rel launches p p' call call' scope scope') :
    ∀ {site : Site} {bound : Bindings Value} (ks : List (String × Expr)),
    bound.All (Value.Known unit.Keeps) → Expr.erasableKeywords unit.asyncNames launches ks = true →
    rel (Bindings Value) (Bindings.All (Value.Known unit.Keeps))
      (p.evalKeywords call scope site bound ks)
      (p'.evalKeywords call' scope' site bound (Expr.eraseKeywords ks))
  | _, _, [], hb, _ => sim.value hb
  | site, bound, (k, e) :: rest, hb, he => by
      simp only [Expr.erasableKeywords, Bool.and_eq_true] at he
      simp only [evalKeywords, Expr.eraseKeywords]
      split
      · exact sim.error (.script ⟨rfl, by simp [frame, sourceSite, h.scopes.name]⟩)
      · exact sim.bind (agree_evalExpr sim h e he.1) fun v hv =>
          agree_evalKeywords sim h rest (hb.set k hv) he.2

/-- The arguments of what is directly a call of an async function. -/
theorem agree_starts (sim : Simulation unit.TameGlobals rel)
    (h : Evaluates unit rel launches p p' call call' scope scope') :
    ∀ (e : Expr), e.starts unit.asyncNames launches = true →
    ∃ f own args keywords site, e = .call (.name f own) args keywords site ∧ f ∈ unit.asyncNames ∧
      rel _ (KeepsArguments unit) (p.evalArguments call scope args keywords site)
        (p'.evalArguments call' scope' (Expr.eraseAll args) (keywords.map Expr.eraseKeywords) site)
  | .call (.name f own) args none site, he => by
      simp only [Expr.starts, Bool.and_eq_true, List.contains_iff_mem] at he
      exact ⟨f, own, args, none, site, rfl, he.1.1,
        sim.bind (agree_evalExprs sim h args he.1.2) fun vs hvs => sim.value ⟨hvs, .nil⟩⟩
  | .call (.name f own) args (some ks) site, he => by
      simp only [Expr.starts, Bool.and_eq_true, List.contains_iff_mem] at he
      exact ⟨f, own, args, some ks, site, rfl, he.1.1,
        sim.bind (agree_evalExprs sim h args he.1.2) fun vs hvs =>
          sim.bind (agree_evalKeywords sim h ks .nil he.2) fun kw hkw => sim.value ⟨hvs, hkw⟩⟩
  | .const _ _, he | .name _ _, he | .list _, he | .tuple _, he | .binary _ _ _ _, he
  | .call (.const _ _) _ _ _, he | .call (.list _) _ _ _, he | .call (.tuple _) _ _ _, he
  | .call (.binary _ _ _ _) _ _ _, he | .call (.call _ _ _ _) _ _ _, he => by
      simp only [Expr.starts, Bool.false_eq_true] at he

theorem agree_startsAll (sim : Simulation unit.TameGlobals rel)
    (h : Evaluates unit rel launches p p' call call' scope scope') :
    ∀ (es : List Expr), Expr.startsAll unit.asyncNames launches es = true →
    ∃ f own args keywords site, es = [.call (.name f own) args keywords site] ∧
      f ∈ unit.asyncNames ∧
      rel _ (KeepsArguments unit) (p.evalArguments call scope args keywords site)
        (p'.evalArguments call' scope' (Expr.eraseAll args) (keywords.map Expr.eraseKeywords) site)
  | [e], he => by
      obtain ⟨f, own, args, keywords, site, rfl, hf, ha⟩ := agree_starts sim h e he
      exact ⟨f, own, args, keywords, site, rfl, hf, ha⟩
  | [], he => by simp only [Expr.startsAll, Bool.false_eq_true] at he
  | _ :: _ :: _, he => by simp only [Expr.startsAll, Bool.false_eq_true] at he

end

/-- The arguments of what is awaited, where nothing is launched. -/
theorem agree_awaited (sim : Simulation unit.TameGlobals rel)
    (h : Evaluates unit rel false p p' call call' scope scope') {f : String} {own : Option Site}
    {args : List Expr} {keywords : Option (List (String × Expr))} {site : Site}
    (he : (Expr.call (.name f own) args keywords site).starts unit.asyncNames false = true) :
    rel _ (KeepsArguments unit) (p.evalArguments call scope args keywords site)
      (p'.evalArguments call' scope' args keywords site) := by
  obtain ⟨f', own', args', ks', site', e, -, ha⟩ := agree_starts sim h _ he
  cases e
  obtain ⟨f', own', args', ks', site', e, -, hargs, hkeywords⟩ := Expr.of_starts he
  cases e
  rw [Expr.eraseAll_eq hargs] at ha
  cases keywords with
  | none => exact ha
  | some ks =>
      rw [Option.map_some, Expr.eraseKeywords_eq (hkeywords ks rfl)] at ha
      exact ha

end Program

end

end Coroutines
