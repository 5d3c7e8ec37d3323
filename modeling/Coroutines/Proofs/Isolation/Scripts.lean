import Coroutines.Proofs.Isolation.Carried
import Coroutines.Proofs.Isolation.Values
import Coroutines.Script.Host

/-!
# Coroutines of scripts are isolated

A coroutine of a script reads its own locals, the functions of its program and the globals, which only module
statements bind; it writes what `print` shows, and a run that it asks for is refused.  So the coroutines of any
program are isolated while the module waits for a run (`Program.isolation`).
-/

namespace Coroutines

/-- Bodies of one function, or that await groups which correspond. -/
inductive Body.Alike (ρ : Names) : Body → Body → Prop
  | function (decl : FunctionDecl) : Alike ρ (.function decl) (.function decl)
  | joined {g g' : GroupRef} (h : g.Alike ρ g') : Alike ρ (.joined g) (.joined g')

theorem Body.Alike.mono {ρ ρ' : Names} (hle : ρ ≤ ρ') {b b' : Body} (h : b.Alike ρ b') : b.Alike ρ' b' := by
  cases h with
  | function decl => exact .function decl
  | joined h => exact .joined (h.mono hle)

theorem Body.Alike.refl (b : Body) : b.Alike .same b := by
  cases b with
  | function decl => exact .function decl
  | joined g => exact .joined ⟨rfl, rfl⟩

namespace Program

/-- What all scopes of a program share has the same names on both sides: its functions, and what is bound
globally. -/
structure Knows (p : Program) (globals : Bindings Value) (ρ : Names) : Prop where
  functions : Bindings.Alike Eq ρ p.functions p.functions
  globals : Bindings.Alike Eq ρ globals globals

theorem Knows.mono {p : Program} {globals : Bindings Value} {ρ ρ' : Names} (h : p.Knows globals ρ) (hle : ρ ≤ ρ') :
    p.Knows globals ρ' := ⟨h.functions.mono hle, h.globals.mono hle⟩

/-- The setting of a run that a module has started with these globals. -/
def setting (p : Program) (globals : Bindings Value) : Setting Body Globals where
  scheduler := 0
  constant g := g.bindings = globals
  admits _ := True
  alike ρ b b' := p.Knows globals ρ ∧ b.Alike ρ b'
  mono hle h := ⟨h.1.mono hle, h.2.mono hle⟩
  refl _ := ⟨⟨.refl (fun _ => rfl) _, .refl (fun _ => rfl) _⟩, .refl _⟩

/-- Script work that agrees, whatever its values are. -/
abbrev Agrees (p : Program) (globals : Bindings Value) (ρ : Names) (a a' : Script Value) : Prop :=
  Action.Agrees (p.setting globals) (Value.Alike Eq) ρ a a'

end Program

/-- Calls of values that agree agree. -/
def Calls.Agree (p : Program) (globals : Bindings Value) (call : Calls) : Prop :=
  ∀ {ρ : Names} {fn fn' : Value} {args args' : List Value} {kwargs kwargs' : Bindings Value},
    p.Knows globals ρ → ρ.OneToOne → fn.Alike Eq ρ fn' → AllAlike ρ args args' →
    Bindings.Alike Eq ρ kwargs kwargs' → p.Agrees globals ρ (call fn args kwargs) (call fn' args' kwargs')

variable {p : Program} {globals : Bindings Value} {call : Calls} {ρ ρ' : Names} {v v' : Value}
  {args args' : List Value} {kwargs kwargs' : Bindings Value}

theorem Action.Agrees.ofExcept {α : Type} {post : Names → α → α → Prop} {r r' : Except Abort α}
    (h : Ends (post ρ) r r') : Action.Agrees (p.setting globals) post ρ (.ofExcept r) (.ofExcept r') := .done h

/-! ### Builtins -/

namespace Builtin

/-- A type error about values that agree is the same on both sides. -/
theorem ends_typeError (h : v.Alike Eq ρ v') (message : String → String) :
    Ends (Value.Alike Eq ρ) (.error (typeError (message v.kindName))) (.error (typeError (message v'.kindName))) := by
  rw [h.kindName]
  exact .error _

theorem ends_absolute (h : v.Alike Eq ρ v') : Ends (Value.Alike Eq ρ) (absolute v) (absolute v') := by
  have hother := ends_typeError h fun kind => s!"bad operand type for abs(): '{kind}'"
  cases h with
  | bool b => exact .ok (.int _)
  | int n => exact .ok (.int _)
  | float x => exact .ok (.float _)
  | _ => exact hother

theorem ends_length (h : v.Alike Eq ρ v') : Ends (Value.Alike Eq ρ) (length v) (length v') := by
  have hother := ends_typeError h fun kind => s!"object of type '{kind}' has no len()"
  cases h with
  | str s => exact .ok (.int _)
  | list h | tuple h =>
      simp only [length, h.length_eq]
      exact .ok (.int _)
  | range => exact .ok (.int _)
  | _ => exact hother

theorem index_alike (h : v.Alike Eq ρ v') : index v = index v' := by
  have hother : ∀ message : String → String, (Except.error (typeError (message v.kindName)) : Except Abort Whole) =
      .error (typeError (message v'.kindName)) := fun message => by rw [h.kindName]
  have hrefused := hother fun kind => s!"'{kind}' object cannot be interpreted as an integer"
  cases h with
  | bool b => rfl
  | int n => rfl
  | _ => exact hrefused

theorem mapM_index_alike (h : AllAlike ρ args args') : args.mapM index = args'.mapM index := by
  induction h with
  | nil => rfl
  | cons hv _ ih => rw [List.mapM_cons, List.mapM_cons, index_alike hv, ih]

theorem printed_alike (h : AllAlike ρ args args') : printed args = printed args' := by
  induction h with
  | nil => rfl
  | @cons v v' rest rest' hv hrest ih =>
      have hdisplay : v.display? = v'.display? := congrArg Text.bounded? hv.display
      have hempty : rest.isEmpty = rest'.isEmpty := by cases hrest <;> rfl
      simp only [printed, hdisplay, hempty, ih]

theorem ends_sumItems {acc acc' : Value} (hρ : ρ.OneToOne) (ha : acc.Alike Eq ρ acc') (h : AllAlike ρ args args') :
    Ends (Value.Alike Eq ρ) (sumItems acc args) (sumItems acc' args') := by
  induction h generalizing acc acc' with
  | nil => exact .ok ha
  | @cons v v' rest rest' hv _ ih =>
      have hsum := BinaryOp.add.ends_apply hρ ha hv
      simp only [sumItems]
      generalize BinaryOp.add.apply acc v = r, BinaryOp.add.apply acc' v' = r' at hsum
      cases hsum with
      | ok h => exact ih h
      | error e => exact .error e

theorem headD_alike (h : AllAlike ρ args args') : (args.headD .none).Alike Eq ρ (args'.headD .none) := by
  cases h with
  | nil => exact .none
  | cons hv _ => exact hv

theorem tail_alike (h : AllAlike ρ args args') : AllAlike ρ args.tail args'.tail := by
  cases h with
  | nil => exact .nil
  | cons _ hs => exact hs

theorem shortest_alike {columns columns' : List (List Value)} (h : List.Forall₂ (AllAlike ρ) columns columns') :
    shortest columns = shortest columns' := by
  induction h with
  | nil => rfl
  | cons hc hrest ih =>
      cases hrest with
      | nil => exact hc.length_eq
      | cons => exact congrArg₂ Nat.min hc.length_eq ih

theorem rows_alike (n : Nat) {columns columns' : List (List Value)} (h : List.Forall₂ (AllAlike ρ) columns columns') :
    List.Forall₂ (AllAlike ρ) (rows n columns) (rows n columns') := by
  induction n generalizing columns columns' with
  | zero => exact .nil
  | succ n ih =>
      exact .cons (List.rel_map (fun _ _ hc => headD_alike hc) h) (ih (List.rel_map (fun _ _ hc => tail_alike hc) h))

theorem any_alike {test : Value → Bool} (htest : ∀ {v v' : Value}, v.Alike Eq ρ v' → test v = test v')
    (h : AllAlike ρ args args') : args.any test = args'.any test := by
  induction h with
  | nil => rfl
  | cons hv _ ih => rw [List.any_cons, List.any_cons, htest hv, ih]

theorem all_alike (h : AllAlike ρ args args') : args.all Value.truthy = args'.all Value.truthy := by
  induction h with
  | nil => rfl
  | cons hv _ ih => rw [List.all_cons, List.all_cons, hv.truthy, ih]

/-- A builtin goes through arguments that agree. -/
theorem iterated_alike (b : Builtin) (h : AllAlike ρ args args') : AllAlike ρ (b.iterated args) (b.iterated args') := by
  cases b with
  | len | list | any | all => exact List.forall₂_take 1 h
  | map => exact tail_alike h
  | filter =>
      have hhead := headD_alike h
      have htail := List.forall₂_take 1 (tail_alike h)
      simp only [iterated, hhead.kind]
      generalize args.headD .none = predicate, args'.headD .none = predicate' at hhead
      cases predicate'.kind.capabilities.contains .callable with
      | true => exact htail
      | false =>
          cases hhead with
          | none => exact htail
          | _ => exact .nil
  | sum =>
      have hfirst := List.forall₂_take 1 h
      have htail := tail_alike h
      simp only [iterated]
      generalize args.tail = rest, args'.tail = rest' at htail
      cases htail with
      | nil => exact hfirst
      | cons hv _ =>
          cases hv with
          | str s => exact .nil
          | _ => exact hfirst
  | _ => exact .nil

theorem agrees_makeRange (h : AllAlike ρ args args') :
    p.Agrees globals ρ (makeRange args) (makeRange args') := by
  unfold makeRange
  rw [mapM_index_alike h]
  cases args'.mapM index with
  | error e => exact .abort e
  | ok bounds =>
      rcases hb : rangeBounds bounds with ⟨start, stop, step⟩
      simp only [Action.ofExcept, bind, Action.pure_bind, hb]
      split
      · exact .abort _
      · exact .identity fun ρ' i j _ _ hij => .pure (.range start stop step hij)

variable (hcall : Calls.Agree p globals call)
include hcall

theorem agrees_mapRows {fn fn' : Value} {table table' : List (List Value)} (hk : p.Knows globals ρ)
    (hρ : ρ.OneToOne) (hfn : fn.Alike Eq ρ fn') (h : List.Forall₂ (AllAlike ρ) table table') :
    Action.Agrees (p.setting globals) AllAlike ρ (mapRows call fn table) (mapRows call fn' table') := by
  induction table generalizing ρ table' with
  | nil =>
      cases h
      exact .pure .nil
  | cons row rest ih =>
      cases h with
      | cons hrow hrest =>
          refine (hcall hk hρ hfn hrow .nil).bind hρ fun ρ₁ hle hone v v' hv => ?_
          refine (ih (hk.mono hle) hone (hfn.mono hle) (hrest.imp fun _ _ h => h.mono hle)).bind hone
            fun ρ₂ hle' _ vs vs' hvs => ?_
          exact .pure (.cons (hv.mono hle') hvs)

theorem agrees_filterItems {predicate predicate' : Value} {items items' : List Value} (hk : p.Knows globals ρ)
    (hρ : ρ.OneToOne) (hp : predicate.Alike Eq ρ predicate') (h : AllAlike ρ items items') :
    Action.Agrees (p.setting globals) AllAlike ρ (filterItems call predicate items)
      (filterItems call predicate' items') := by
  induction items generalizing ρ items' with
  | nil =>
      cases h
      exact .pure .nil
  | cons item rest ih =>
      obtain ⟨item', rest', hitem, hrest, rfl⟩ := List.forall₂_cons_left_iff.mp h
      -- whatever tells whether the item is kept
      have hkeep : ∀ {x x' : Script Value}, p.Agrees globals ρ x x' → Action.Agrees (p.setting globals) AllAlike ρ
          (x.bind fun keep => (filterItems call predicate rest).bind fun vs =>
            .done (.ok (if keep.truthy then item :: vs else vs)))
          (x'.bind fun keep => (filterItems call predicate' rest').bind fun vs =>
            .done (.ok (if keep.truthy then item' :: vs else vs))) := by
        intro x x' hx
        refine hx.bind hρ fun ρ₁ hle hone keep keep' hkeep => ?_
        refine (ih (hk.mono hle) hone (hp.mono hle) (AllAlike.mono hle hrest)).bind hone fun ρ₂ hle' _ vs vs' hvs => ?_
        refine .pure ?_
        rw [hkeep.truthy]
        split
        · exact .cons ((hitem.mono hle).mono hle') hvs
        · exact hvs
      have hcalled := hkeep (hcall hk hρ hp (.cons hitem .nil) .nil)
      cases hp with
      | none => exact hkeep (.pure hitem)
      | _ => exact hcalled

omit hcall in
theorem agrees_members (h : AllAlike ρ args args') (hk : p.Knows globals ρ) (hρ : ρ.OneToOne) :
    Action.Agrees (p.setting globals) (fun ρ => List.Forall₂ (CoroutineRef.Alike ρ)) ρ (members args)
      (members args') := by
  induction args generalizing ρ args' with
  | nil =>
      cases h
      exact .pure .nil
  | cons v rest ih =>
      obtain ⟨v', rest', hv, hrest, rfl⟩ := List.forall₂_cons_left_iff.mp h
      have hmore := ih hrest hk hρ
      cases hv with
      | coroutine hc =>
          exact hmore.bind hρ fun ρ' hle _ cs cs' hcs => .pure (.cons (hc.mono hle) hcs)
      | joinGroup hg =>
          refine .spawn "_GatheringFuture" trivial ⟨hk, .joined hg⟩ .nil fun ρ₁ i j hle hone hij => ?_
          exact (ih (AllAlike.mono hle hrest) (hk.mono hle) hone).bind hone fun ρ₂ hle' _ cs cs' hcs =>
            .pure (.cons ⟨rfl, hle' _ _ _ hij⟩ hcs)
      | _ => exact hmore

theorem agrees_compute (b : Builtin) (hk : p.Knows globals ρ) (hρ : ρ.OneToOne) (ha : AllAlike ρ args args')
    (hkw : Bindings.Alike Eq ρ kwargs kwargs') :
    p.Agrees globals ρ (b.compute call kwargs args) (b.compute call kwargs' args') := by
  have hhead := headD_alike ha
  have htail := tail_alike ha
  cases b with
  | abs => exact .ofExcept (ends_absolute hhead)
  | len => exact .ofExcept (ends_length hhead)
  | list =>
      refine .pure (.list ?_)
      cases ha with
      | nil => exact .nil
      | cons hv _ => exact hv.items
  | range => exact agrees_makeRange ha
  | map =>
      have hcolumns : List.Forall₂ (AllAlike ρ) (args.tail.map Value.items) (args'.tail.map Value.items) :=
        List.rel_map (fun _ _ hv => hv.items) htail
      simp only [compute, shortest_alike hcolumns]
      exact (agrees_mapRows hcall hk hρ hhead (rows_alike _ hcolumns)).bind hρ fun _ _ _ vs vs' hvs =>
        .pure (.list hvs)
  | filter =>
      have hlist : p.Agrees globals ρ
          ((filterItems call (args.headD .none) (args.tail.headD .none).items).bind fun vs => .done (.ok (.list vs)))
          ((filterItems call (args'.headD .none) (args'.tail.headD .none).items).bind fun vs =>
            .done (.ok (.list vs))) :=
        (agrees_filterItems hcall hk hρ hhead (headD_alike htail).items).bind hρ fun _ _ _ vs vs' hvs =>
          .pure (.list hvs)
      have hrefused : p.Agrees globals ρ
          (.abort (.raise (.argumentShape (args.headD .none).kindName .callable)))
          (.abort (.raise (.argumentShape (args'.headD .none).kindName .callable))) := by
        rw [hhead.kindName]
        exact .abort _
      simp only [compute, hhead.kind]
      generalize args.headD .none = predicate, args'.headD .none = predicate' at hhead hlist hrefused
      cases predicate'.kind.capabilities.contains .callable with
      | true => exact hlist
      | false =>
          cases hhead with
          | none => exact hlist
          | _ => exact hrefused
  | sum =>
      have hsum : ∀ {start start' : Value}, start.Alike Eq ρ start' → p.Agrees globals ρ
          (.ofExcept (sumItems start (args.headD .none).items))
          (.ofExcept (sumItems start' (args'.headD .none).items)) :=
        fun h => .ofExcept (ends_sumItems hρ h hhead.items)
      simp only [compute]
      generalize args.tail = rest, args'.tail = rest' at htail
      cases htail with
      | nil => exact hsum (.int _)
      | cons hv _ =>
          have hstart := hsum hv
          cases hv with
          | str s => exact .abort _
          | _ => exact hstart
  | any => exact .pure (any_alike (fun h => h.truthy) hhead.items ▸ .bool _)
  | all => exact .pure (all_alike hhead.items ▸ .bool _)
  | print =>
      simp only [compute, printed_alike ha]
      refine .modify (fun _ h => h) (fun _ h => h) (.ofExcept ?_)
      rcases printed_snd args' with h | h <;> rw [h]
      · exact .ok .none
      · exact .error _
  | run =>
      have hother : ∀ message : String → String, p.Agrees globals ρ
          (.abort (.raise (.raised .valueError (some (message (args.headD .none).kindName)))))
          (.abort (.raise (.raised .valueError (some (message (args'.headD .none).kindName))))) := fun message => by
        rw [hhead.kindName]
        exact .abort _
      have hrefused := hother fun kind => s!"a coroutine was expected, got {kind}"
      simp only [compute]
      generalize args.headD .none = main, args'.headD .none = main' at hhead hother hrefused
      cases hhead with
      | coroutine hc => exact .run _ _ (.abort _)
      | _ => exact hrefused
  | gather =>
      have hflag : (kwargs.get? "return_exceptions").map Value.truthy =
          (kwargs'.get? "return_exceptions").map Value.truthy := by
        have hget := hkw.get? "return_exceptions"
        generalize kwargs.get? "return_exceptions" = x, kwargs'.get? "return_exceptions" = x' at hget
        cases hget with
        | some h => exact congrArg some h.truthy
        | none => rfl
      simp only [compute, hflag]
      refine (agrees_members ha hk hρ).bind hρ fun ρ₁ hle hone cs cs' hcs => ?_
      exact .joinAll 0 _ hcs (fun ρ₂ i j hle' _ hij => .pure (.joinGroup ⟨hcs.length_eq, hij⟩)) (.abort _)

/-- **Builtins agree** if the calls that they make do. -/
theorem agrees_execute (b : Builtin) (hk : p.Knows globals ρ) (hρ : ρ.OneToOne) (ha : AllAlike ρ args args')
    (hkw : Bindings.Alike Eq ρ kwargs kwargs') :
    p.Agrees globals ρ (b.execute call kwargs args) (b.execute call kwargs' args') := by
  have hendless : (b.iterated args).any Value.endless = (b.iterated args').any Value.endless :=
    any_alike (fun h => h.endless) (iterated_alike b ha)
  unfold execute
  rw [hendless]
  split
  · exact .abort _
  · exact agrees_compute hcall b hk hρ ha hkw

/-- Calls of builtins agree: arguments are checked alike. -/
theorem agrees_invoke (b : Builtin) (hk : p.Knows globals ρ) (hρ : ρ.OneToOne) (ha : AllAlike ρ args args')
    (hkw : Bindings.Alike Eq ρ kwargs kwargs') :
    p.Agrees globals ρ (b.invoke call args kwargs) (b.invoke call args' kwargs') := by
  unfold invoke Signature.guard
  rw [b.signature.check_alike ha hkw]
  split
  · exact .abort _
  · exact agrees_execute hcall b hk hρ ha hkw

end Builtin

/-! ### Expressions -/

/-- Two scopes of one name and mode, with locals that agree. -/
structure Scope.Matches (p : Program) (globals : Bindings Value) (ρ : Names) (scope scope' : Scope) : Prop where
  known : p.Knows globals ρ
  oneToOne : ρ.OneToOne
  name : scope.name = scope'.name
  mode : scope.mode = scope'.mode
  locals : Bindings.Alike Eq ρ scope.locals scope'.locals

variable {scope scope' : Scope}

theorem Scope.Matches.mono (h : scope.Matches p globals ρ scope') (hle : ρ ≤ ρ') (hone : ρ'.OneToOne) :
    scope.Matches p globals ρ' scope' :=
  ⟨h.known.mono hle, hone, h.name, h.mode, h.locals.mono hle⟩

namespace Program

theorem frame_alike (h : scope.Matches p globals ρ scope') (operation : String) (ha : AllAlike ρ args args')
    (site : Site) : p.frame scope.name operation args site = p.frame scope'.name operation args' site := by
  have hkinds : args.map Value.kindName = args'.map Value.kindName := by
    induction ha with
    | nil => rfl
    | cons hv _ ih => exact congrArg₂ List.cons hv.kindName ih
  rw [frame, frame, hkinds, h.name]

theorem constant_alike (float : Option Bool) (value : Literal) :
    (constant float value).Alike Eq ρ (constant float value) := by
  cases value with
  | none => exact .none
  | bool b => exact .bool b
  | text s => exact .str s
  | number n =>
      simp only [constant]
      split
      · exact .float n
      · exact .int _

theorem agrees_lookup (h : scope.Matches p globals ρ scope') (name : String) :
    Action.Agrees (p.setting globals) (fun ρ => Option.Rel (Value.Alike Eq ρ)) ρ (p.lookup scope name)
      (p.lookup scope' name) := by
  have hlocal := h.locals.get? name
  unfold lookup
  generalize scope.locals.get? name = x, scope'.locals.get? name = x' at hlocal
  cases hlocal with
  | some hv => exact .pure (.some hv)
  | none =>
      refine .read fun g g' hg hg' => .pure ?_
      rw [show g.bindings = globals from hg, show g'.bindings = globals from hg']
      -- a global, a function or a builtin
      have hglobal := h.known.globals.get? name
      generalize globals.get? name = y at hglobal
      cases hglobal with
      | some hv => exact .some hv
      | none =>
          have hfunction := h.known.functions.get? name
          generalize p.functions.get? name = z at hfunction
          cases hfunction with
          | some hv => exact .some hv
          | none =>
              cases Builtin.ofName? name with
              | none => exact .none
              | some b => exact .some (.builtin b)

theorem operation_alike (h : v.Alike Eq ρ v') : operation v = operation v' := by cases h <;> rfl

/-- The call of what an expression calls. -/
theorem agrees_called (hcall : Calls.Agree p globals call) (h : scope.Matches p globals ρ scope')
    {fn fn' : Value} (hfn : fn.Alike Eq ρ fn') (ha : AllAlike ρ args args')
    (hk : Bindings.Alike Eq ρ kwargs kwargs') (site : Site) :
    p.Agrees globals ρ
      ((call fn args kwargs).catchScript fun r => .raise (r.within (p.frame scope.name (operation fn) args site)))
      ((call fn' args' kwargs').catchScript fun r =>
        .raise (r.within (p.frame scope'.name (operation fn') args' site))) := by
  rw [operation_alike hfn, frame_alike h _ ha]
  exact (hcall h.known h.oneToOne hfn ha hk).catchScript fun _ _ _ => .abort _

mutual

/-- **Expressions agree in scopes that do**, by induction on the expression. -/
theorem agrees_evalExpr (hcall : Calls.Agree p globals call) {ρ : Names} {scope scope' : Scope}
    {enclosing : Option Site} (h : scope.Matches p globals ρ scope') :
    ∀ e : Expr, p.Agrees globals ρ (p.evalExpr call scope enclosing e) (p.evalExpr call scope' enclosing e)
  | .const value float => .pure (constant_alike float value)
  | .name name own => by
      refine (agrees_lookup h name).bind h.oneToOne fun ρ' _ _ x x' hx => ?_
      cases hx with
      | some hv => exact .pure hv
      | none =>
          rw [h.name]
          exact .abort _
  | .list elements =>
      (agrees_evalExprs hcall h elements).bind h.oneToOne fun _ _ _ _ _ hvs => .pure (.list hvs)
  | .tuple elements =>
      (agrees_evalExprs hcall h elements).bind h.oneToOne fun _ _ _ _ _ hvs => .pure (.tuple hvs)
  | .binary op left right site => by
      refine (agrees_evalExpr hcall h left).bind h.oneToOne fun ρ₁ hle hone a a' ha => ?_
      refine (agrees_evalExpr hcall (h.mono hle hone) right).bind hone fun ρ₂ hle' hone' b b' hb => ?_
      have ha' := ha.mono hle'
      have hframe := frame_alike ((h.mono hle hone).mono hle' hone') op.symbol (.cons ha' (.cons hb .nil)) site
      have happly := op.ends_apply hone' ha' hb
      simp only [hframe]
      generalize op.apply a b = r, op.apply a' b' = r' at happly
      cases happly with
      | ok hv => exact .pure hv
      | error e => cases e <;> exact .abort _
  | .call callee args none site => by
      simp only [evalExpr]
      refine (agrees_evalExpr hcall h callee).bind h.oneToOne fun ρ₁ hle hone fn fn' hfn => ?_
      refine (agrees_evalExprs hcall (h.mono hle hone) args).bind hone fun ρ₂ hle' hone' vs vs' hvs => ?_
      exact agrees_called hcall ((h.mono hle hone).mono hle' hone') (hfn.mono hle') hvs .nil site
  | .call callee args (some ks) site => by
      simp only [evalExpr]
      refine (agrees_evalExpr hcall h callee).bind h.oneToOne fun ρ₁ hle hone fn fn' hfn => ?_
      refine (agrees_evalExprs hcall (h.mono hle hone) args).bind hone fun ρ₂ hle' hone' vs vs' hvs => ?_
      have h₂ := (h.mono hle hone).mono hle' hone'
      refine (agrees_evalKeywords hcall h₂ .nil ks).bind hone' fun ρ₃ hle'' hone'' kwargs kwargs' hkw => ?_
      exact agrees_called hcall (h₂.mono hle'' hone'') ((hfn.mono hle').mono hle'') (AllAlike.mono hle'' hvs) hkw site

theorem agrees_evalExprs (hcall : Calls.Agree p globals call) {ρ : Names} {scope scope' : Scope}
    {enclosing : Option Site} (h : scope.Matches p globals ρ scope') :
    ∀ es : List Expr, Action.Agrees (p.setting globals) AllAlike ρ (p.evalExprs call scope enclosing es)
      (p.evalExprs call scope' enclosing es)
  | [] => .pure .nil
  | e :: rest =>
      (agrees_evalExpr hcall h e).bind h.oneToOne fun _ hle hone _ _ hv =>
        (agrees_evalExprs hcall (h.mono hle hone) rest).bind hone fun _ hle' _ _ _ hvs =>
          .pure (.cons (hv.mono hle') hvs)

theorem agrees_evalKeywords (hcall : Calls.Agree p globals call) {ρ : Names} {scope scope' : Scope} {site : Site}
    {bound bound' : Bindings Value} (h : scope.Matches p globals ρ scope') (hb : Bindings.Alike Eq ρ bound bound') :
    ∀ ks : List (String × Expr), Action.Agrees (p.setting globals) (Bindings.Alike Eq) ρ
      (p.evalKeywords call scope site bound ks) (p.evalKeywords call scope' site bound' ks)
  | [] => .pure hb
  | (name, e) :: rest => by
      simp only [evalKeywords, hb.has, h.name]
      split
      · exact .abort _
      · exact (agrees_evalExpr hcall h e).bind h.oneToOne fun ρ' hle hone v v' hv =>
          agrees_evalKeywords hcall (h.mono hle hone) ((hb.mono hle).set name hv) rest

end

end Program

/-! ### Statements -/

/-- Completions of one kind with values or targets that agree. -/
inductive Completion.Alike (ρ : Names) : Completion → Completion → Prop
  | next {v v' : Value} (h : v.Alike Eq ρ v') : Alike ρ (.next v) (.next v')
  | bind (name : String) {v v' : Value} (h : v.Alike Eq ρ v') : Alike ρ (.bind name v) (.bind name v')
  | ret {v v' : Value} (h : v.Alike Eq ρ v') : Alike ρ (.ret v) (.ret v')
  | await {t t' : Target} (h : t.Alike ρ t') : Alike ρ (.await t) (.await t')

theorem Scope.Matches.after (h : scope.Matches p globals ρ scope') {c c' : Completion} (hc : c.Alike ρ c') :
    (scope.after c).Matches p globals ρ (scope'.after c') := by
  cases hc with
  | bind name hv => exact ⟨h.known, h.oneToOne, h.name, h.mode, h.locals.set name hv⟩
  | _ => exact h

namespace Program

theorem ends_assertion (h : v.Alike Eq ρ v') (frame : CallFrame) :
    Ends (Completion.Alike ρ) (assertion v frame) (assertion v' frame) := by
  have heq : assertion v frame = assertion v' frame := by
    rw [assertion, assertion, Value.display?, Value.display?, h.display]
  rw [heq]
  rcases assertion_eq v' with h | h <;> rw [h] <;> exact .error _

/-- **Statements agree in scopes that do.** -/
theorem agrees_execStmt (hcall : Calls.Agree p globals call) (h : scope.Matches p globals ρ scope') (s : Stmt) :
    Action.Agrees (p.setting globals) Completion.Alike ρ (p.execStmt call scope s) (p.execStmt call scope' s) := by
  cases s with
  | assign name value site =>
      exact (agrees_evalExpr hcall h value).bind h.oneToOne fun _ _ _ _ _ hv => .pure (.bind name hv)
  | expr value site => exact (agrees_evalExpr hcall h value).bind h.oneToOne fun _ _ _ _ _ hv => .pure (.next hv)
  | ret value site =>
      simp only [execStmt, h.mode]
      split
      · exact .abort _
      · cases value with
        | none => exact .pure (.ret .none)
        | some e => exact (agrees_evalExpr hcall h e).bind h.oneToOne fun _ _ _ _ _ hv => .pure (.ret hv)
  | assert test message site =>
      refine (agrees_evalExpr hcall h test).bind h.oneToOne fun ρ₁ hle hone v v' hv => ?_
      have h₁ := h.mono hle hone
      rw [hv.truthy, frame_alike h₁ "assert" (.cons hv .nil) site]
      split
      · exact .pure (.next .none)
      · cases message with
        | none => exact .abort _
        | some e =>
            exact (agrees_evalExpr hcall h₁ e).bind hone fun _ _ _ m m' hm => .ofExcept (ends_assertion hm _)
  | await target value site =>
      refine (agrees_evalExpr hcall h value).bind h.oneToOne fun ρ₁ hle hone v v' hv => ?_
      have h₁ := h.mono hle hone
      have hrefused : ∀ frame, Action.Agrees (p.setting globals) Completion.Alike ρ₁
          (.raise ⟨.notAwaitable v.kindName, [frame]⟩) (.raise ⟨.notAwaitable v'.kindName, [frame]⟩) := fun frame => by
        rw [hv.kindName]
        exact .abort _
      simp only [h.mode, frame_alike h₁ "await" (.cons hv .nil) site]
      split
      · exact .abort _
      · cases hv with
        | coroutine hc => exact .pure (.await (.coroutine hc))
        | joinGroup hg => exact .pure (.await (.group hg))
        | _ => exact hrefused _

theorem agrees_runBody (hcall : Calls.Agree p globals call) (stmts : List Stmt)
    (h : scope.Matches p globals ρ scope') :
    p.Agrees globals ρ (p.runBody call scope stmts) (p.runBody call scope' stmts) := by
  induction stmts generalizing ρ scope scope' with
  | nil => exact .pure .none
  | cons s rest ih =>
      refine (agrees_execStmt hcall h s).bind h.oneToOne fun ρ₁ hle hone c c' hc => ?_
      have hrest := ih ((h.mono hle hone).after hc)
      cases hc with
      | ret hv => exact .pure hv
      | await ht =>
          rw [h.name]
          exact .abort _
      | _ => exact hrest

/-! ### Calls and bodies -/

theorem agrees_callFunction (hcall : Calls.Agree p globals call) (fn : FunctionDecl) (hk : p.Knows globals ρ)
    (hρ : ρ.OneToOne) (ha : AllAlike ρ args args') (hkw : Bindings.Alike Eq ρ kwargs kwargs') :
    p.Agrees globals ρ (p.callFunction call fn args kwargs) (p.callFunction call fn args' kwargs') := by
  have hparams := fn.ends_bindParams ha hkw
  unfold callFunction
  generalize fn.bindParams args kwargs = r, fn.bindParams args' kwargs' = r' at hparams
  cases hparams with
  | error f => exact .abort _
  | ok hl =>
      simp only
      split
      · exact .spawn fn.name trivial ⟨hk, .function fn⟩ hl fun _ _ _ _ _ hij => .pure (.coroutine ⟨rfl, hij⟩)
      · exact agrees_runBody hcall fn.body ⟨hk, hρ, rfl, rfl, hl⟩

/-- **Calls agree**, by induction on how deep they nest. -/
theorem agree_callValue (p : Program) (globals : Bindings Value) (depth : Nat) :
    Calls.Agree p globals (p.callValue depth) := by
  induction depth with
  | zero => exact fun _ _ _ _ _ => .abort _
  | succ depth ih =>
      intro ρ fn fn' args args' kwargs kwargs' hk hρ hfn ha hkw
      have hrefused : p.Agrees globals ρ (.abort (.raise (.argumentShape fn.kindName .callable)))
          (.abort (.raise (.argumentShape fn'.kindName .callable))) := by
        rw [hfn.kindName]
        exact .abort _
      cases hfn with
      | builtin b => exact Builtin.agrees_invoke ih b hk hρ ha hkw
      | function decl _ => exact agrees_callFunction ih decl hk hρ ha hkw
      | _ => exact hrefused

theorem agrees_runAsync (hcall : Calls.Agree p globals call) (stmts : List Stmt) (pc : Nat)
    (h : scope.Matches p globals ρ scope') :
    Action.Agrees (p.setting globals) Halted ρ (p.runAsync call scope pc stmts)
      (p.runAsync call scope' pc stmts) := by
  induction stmts generalizing ρ scope scope' pc with
  | nil => exact .pure ⟨⟨rfl, h.locals⟩, .ret .none⟩
  | cons s rest ih =>
      refine (agrees_execStmt hcall h s).bind h.oneToOne fun ρ₁ hle hone c c' hc => ?_
      have hrest := ih (pc + 1) ((h.mono hle hone).after hc)
      cases hc with
      | ret hv => exact .pure ⟨⟨rfl, h.locals.mono hle⟩, .ret hv⟩
      | await ht => exact .pure ⟨⟨rfl, h.locals.mono hle⟩, .await ht⟩
      | _ => exact hrest

theorem agrees_resumeFunction (hcall : Calls.Agree p globals call) (fn : FunctionDecl) {f f' : Frame}
    {input input' : Input} (hk : p.Knows globals ρ) (hρ : ρ.OneToOne) (hf : f.Alike Eq ρ f')
    (hi : input.Alike Eq ρ input') :
    Action.Agrees (p.setting globals) Halted ρ (p.resumeFunction call fn f input)
      (p.resumeFunction call fn f' input') := by
  have hscope : (⟨fn.name, f.locals, .async⟩ : Scope).Matches p globals ρ ⟨fn.name, f'.locals, .async⟩ :=
    ⟨hk, hρ, rfl, rfl, hf.2⟩
  unfold resumeFunction
  rw [hf.1]
  cases hi with
  | start => exact agrees_runAsync hcall _ _ hscope
  | throw hr =>
      subst hr
      cases awaitAt? fn f'.pc with
      | none => exact .abort _
      | some at? => exact .pure ⟨hf, .raise rfl⟩
  | value hv =>
      cases awaitAt? fn f'.pc with
      | none => exact .abort _
      | some at? =>
          obtain ⟨_ | x, site⟩ := at?
          · exact agrees_runAsync hcall _ _ hscope
          · exact agrees_runAsync hcall _ _ (hscope.after (.bind x hv))

/-- **The coroutines of a program are isolated** in the runs of its scheduler, as long as its globals
stay as they are. -/
def isolation (p : Program) (globals : Bindings Value) (depth : Nat) :
    Isolation (p.bodies depth) 0 fun g => g.bindings = globals :=
  Isolation.ofActions (S := p.setting globals) fun hρ _ hb hf hi => by
    obtain ⟨hk, hb⟩ := hb
    cases hb with
    | function decl => exact agrees_resumeFunction (agree_callValue p globals depth) decl hk hρ hf hi
    | joined hg =>
        cases hi with
        | start => exact .pure ⟨hf, .await (.group hg)⟩
        | value hv => exact .pure ⟨hf, .ret hv⟩
        | throw hr => exact .pure ⟨hf, .raise hr⟩

end Program

end Coroutines
