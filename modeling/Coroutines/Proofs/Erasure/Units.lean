import Coroutines.Validation
import Coroutines.Value.Basic

/-!
# Erasure of awaits

A unit whose coroutines only ever await fresh calls of its own async functions can be written without
coroutines: every async function becomes a plain one, an await becomes a call and `asyncio.run(e)`
becomes `e` (`CompiledUnit.erase`).  `CompiledUnit.Transparent` says which units these are.
-/

namespace Coroutines

/-! ### Erasure -/

namespace Expr

/-- The expression is the name `asyncio.run`. -/
def isRun : Expr → Bool
  | .name n _ => n = Builtin.run.name
  | _ => false

/-- The argument of a call of `asyncio.run` that has this argument only. -/
def ran? (callee : Expr) (args : List Expr) (keywords : Option (List (String × Expr))) :
    Option Expr :=
  match args, callee.isRun && (keywords.getD []).isEmpty with
  | [e], true => some e
  | _, _ => none

mutual

/-- The expression with `e` in the place of every `asyncio.run(e)`. -/
def erase : Expr → Expr
  | .const value float => .const value float
  | .name n site => .name n site
  | .list elements => .list (eraseAll elements)
  | .tuple elements => .tuple (eraseAll elements)
  | .binary op left right site => .binary op left.erase right.erase site
  | .call callee args keywords site =>
    (ran? callee (eraseAll args) keywords).getD
      (.call callee.erase (eraseAll args)
        (match keywords with
          | some ks => some (eraseKeywords ks)
          | none => none)
        site)

def eraseAll : List Expr → List Expr
  | [] => []
  | e :: rest => e.erase :: eraseAll rest

def eraseKeywords : List (String × Expr) → List (String × Expr)
  | [] => []
  | (k, e) :: rest => (k, e.erase) :: eraseKeywords rest

end

end Expr

namespace Stmt

/-- The statement with a plain one in the place of an await. -/
def erase : Stmt → Stmt
  | .assign name value site => .assign name value.erase site
  | .expr value site => .expr value.erase site
  | .await (some name) value site => .assign name value.erase (some site)
  | .await none value site => .expr value.erase (some site)
  | .ret value site => .ret (value.map Expr.erase) site
  | .assert test message site => .assert test.erase (message.map Expr.erase) site

end Stmt

/-- The function as a plain one. -/
def FunctionDecl.erase (fn : FunctionDecl) : FunctionDecl :=
  { fn with isAsync := false, body := fn.body.map Stmt.erase }

/-- The unit without coroutines. -/
def CompiledUnit.erase (unit : CompiledUnit) : CompiledUnit :=
  { unit with
    functions := unit.functions.map FunctionDecl.erase
    module := unit.module.map Stmt.erase }

/-! ### Units whose awaits can be erased -/

/-- A name that stands for no async function and for no way to run or group coroutines. -/
def isOpen (async : List String) (n : String) : Bool :=
  !async.contains n && n ≠ Builtin.run.name && n ≠ Builtin.gather.name

namespace Expr

mutual

/-- All names in the expression are open, but for `asyncio.run(f(...))` with an async function `f`
where the expression `launches`. -/
def erasable (async : List String) (launches : Bool) : Expr → Bool
  | .const _ _ => true
  | .name n _ => isOpen async n
  | .list elements | .tuple elements => erasableAll async launches elements
  | .binary _ left right _ => left.erasable async launches && right.erasable async launches
  | .call callee args keywords _ =>
    (callee.erasable async launches && erasableAll async launches args &&
      (match keywords with
        | some ks => erasableKeywords async launches ks
        | none => true)) ||
    (launches && callee.isRun && (keywords.getD []).isEmpty && startsAll async launches args)

def erasableAll (async : List String) (launches : Bool) : List Expr → Bool
  | [] => true
  | e :: rest => e.erasable async launches && erasableAll async launches rest

def erasableKeywords (async : List String) (launches : Bool) : List (String × Expr) → Bool
  | [] => true
  | (_, e) :: rest => e.erasable async launches && erasableKeywords async launches rest

/-- The expression is directly a call of an async function. -/
def starts (async : List String) (launches : Bool) : Expr → Bool
  | .call (.name f _) args keywords _ =>
    async.contains f && erasableAll async launches args &&
      (match keywords with
        | some ks => erasableKeywords async launches ks
        | none => true)
  | _ => false

/-- There is one expression, and it is directly a call of an async function. -/
def startsAll (async : List String) (launches : Bool) : List Expr → Bool
  | [e] => e.starts async launches
  | _ => false

end

end Expr

/-- Every expression of the statement can be erased, and what it awaits is directly a call of an async
function. -/
def Stmt.erasable (async : List String) (launches : Bool) : Stmt → Bool
  | .assign _ value _ | .expr value _ => value.erasable async launches
  | .await _ value _ => value.starts async launches
  | .ret value _ => value.all (Expr.erasable async launches)
  | .assert test message _ =>
    test.erasable async launches && message.all (Expr.erasable async launches)

namespace CompiledUnit

/-- The names of the async functions. -/
def asyncNames (unit : CompiledUnit) : List String :=
  (unit.functions.filter FunctionDecl.isAsync).map FunctionDecl.name

/-- The names that parameters, inputs and statements bind. -/
def boundNames (unit : CompiledUnit) : List String :=
  assignedNames unit.module ++ unit.inputs.getD [] ++
    unit.functions.flatMap fun fn => fn.params ++ assignedNames fn.body

/-- The awaits of a unit can be erased: every await is directly of a call of an async function, every
`asyncio.run` is directly of such a call and stands in the module, and neither these names nor
`asyncio.gather` occur anywhere else or are bound. -/
structure Transparent (unit : CompiledUnit) : Prop where
  valid : unit.validate (some Builtin.names) = []
  functions : ∀ fn ∈ unit.functions, ∀ s ∈ fn.body, s.erasable unit.asyncNames false = true
  module : ∀ s ∈ unit.module, s.erasable unit.asyncNames true = true
  bound : ∀ n ∈ unit.boundNames, n ∉ unit.asyncNames ∧ n ≠ Builtin.run.name
  named : ∀ fn ∈ unit.functions, fn.name ≠ Builtin.run.name

end CompiledUnit

/-! ### What is erased -/

namespace Expr

variable {async : List String} {launches : Bool}

theorem ne_run_of_isOpen {n : String} (h : isOpen async n = true) : n ≠ Builtin.run.name := by
  simp only [isOpen, Bool.and_eq_true, decide_eq_true_eq] at h
  exact h.1.2

theorem isRun_of_erasable {callee : Expr} (h : callee.erasable async launches = true) :
    callee.isRun = false := by
  cases callee with
  | name n site => exact decide_eq_false (ne_run_of_isOpen h)
  | _ => rfl

theorem ran?_of_isRun {callee : Expr} (h : callee.isRun = false) (args : List Expr)
    (keywords : Option (List (String × Expr))) : ran? callee args keywords = none := by
  unfold ran?
  rw [h]
  split
  · next e => cases e
  · rfl

/-- The keywords of a call can be erased. -/
def ErasableKeywords (async : List String) (launches : Bool)
    (keywords : Option (List (String × Expr))) : Prop :=
  ∀ ks, keywords = some ks → erasableKeywords async launches ks = true

theorem erase_call {callee : Expr} {args : List Expr} {keywords : Option (List (String × Expr))}
    (h : ran? callee (eraseAll args) keywords = none) (site : Site) :
    (Expr.call callee args keywords site).erase =
      .call callee.erase (eraseAll args) (keywords.map eraseKeywords) site := by
  cases keywords <;> simp only [erase, h, Option.getD_none, Option.map_none, Option.map_some]

/-- `asyncio.run(e)` erases to `e`. -/
theorem erase_run {callee e : Expr} {keywords : Option (List (String × Expr))}
    (hrun : callee.isRun = true) (hk : keywords.getD [] = []) (site : Site) :
    (Expr.call callee [e] keywords site).erase = e.erase := by
  cases keywords <;> simp only [erase, eraseAll, ran?, hrun, hk] <;> rfl

theorem exists_of_isRun {callee : Expr} (h : callee.isRun = true) :
    ∃ own, callee = .name Builtin.run.name own := by
  cases callee with
  | name n own => exact ⟨own, congrArg (Expr.name · own) (of_decide_eq_true h)⟩
  | _ => cases h

theorem isRun_of_ne {n : String} (h : n ≠ Builtin.run.name) (own : Option Site) :
    (Expr.name n own).isRun = false := decide_eq_false h

/-- What is directly a call of an async function. -/
theorem of_starts {e : Expr} (h : e.starts async launches = true) :
    ∃ f own args keywords site, e = .call (.name f own) args keywords site ∧ f ∈ async ∧
      erasableAll async launches args = true ∧ ErasableKeywords async launches keywords := by
  unfold starts at h
  split at h
  · next f own args keywords site =>
      refine ⟨f, own, args, keywords, site, rfl, ?_⟩
      cases keywords with
      | none =>
          simp only [Bool.and_eq_true, List.contains_iff_mem] at h
          exact ⟨h.1.1, h.1.2, nofun⟩
      | some ks =>
          simp only [Bool.and_eq_true, List.contains_iff_mem] at h
          exact ⟨h.1.1, h.1.2, fun ks' e => Option.some.inj e ▸ h.2⟩
  · cases h

/-- A call that can be erased has erasable parts, or it runs a call of an async function. -/
theorem of_erasable_call {callee : Expr} {args : List Expr}
    {keywords : Option (List (String × Expr))} {site : Site}
    (h : (Expr.call callee args keywords site).erasable async launches = true) :
    (callee.erasable async launches = true ∧ erasableAll async launches args = true ∧
        ErasableKeywords async launches keywords) ∨
      launches = true ∧ callee.isRun = true ∧ keywords.getD [] = [] ∧
        startsAll async launches args = true := by
  cases keywords with
  | none =>
      simp only [erasable, Bool.or_eq_true, Bool.and_eq_true] at h
      rcases h with h | h
      · exact .inl ⟨h.1.1, h.1.2, nofun⟩
      · exact .inr ⟨h.1.1.1, h.1.1.2, rfl, h.2⟩
  | some ks =>
      simp only [erasable, Bool.or_eq_true, Bool.and_eq_true, List.isEmpty_iff] at h
      rcases h with h | h
      · exact .inl ⟨h.1.1, h.1.2, fun ks' e => Option.some.inj e ▸ h.2⟩
      · exact .inr ⟨h.1.1.1, h.1.1.2, h.1.2, h.2⟩

mutual

/-- Where nothing is run there is nothing to erase. -/
theorem erase_eq : ∀ {e : Expr}, e.erasable async false = true → e.erase = e
  | .const _ _, _ | .name _ _, _ => rfl
  | .list elements, h => congrArg Expr.list (eraseAll_eq h)
  | .tuple elements, h => congrArg Expr.tuple (eraseAll_eq h)
  | .binary op left right site, h => by
      simp only [erasable, Bool.and_eq_true] at h
      simp only [erase, erase_eq h.1, erase_eq h.2]
  | .call callee args keywords site, h => by
      rcases of_erasable_call h with ⟨hcallee, hargs, hkeywords⟩ | ⟨hl, -⟩
      · rw [erase_call (ran?_of_isRun (isRun_of_erasable hcallee) _ _), erase_eq hcallee, eraseAll_eq hargs]
        cases keywords with
        | none => rfl
        | some ks => rw [Option.map_some, eraseKeywords_eq (hkeywords ks rfl)]
      · cases hl

theorem eraseAll_eq : ∀ {es : List Expr}, erasableAll async false es = true → eraseAll es = es
  | [], _ => rfl
  | e :: rest, h => by
      simp only [erasableAll, Bool.and_eq_true] at h
      simp only [eraseAll, erase_eq h.1, eraseAll_eq h.2]

theorem eraseKeywords_eq : ∀ {ks : List (String × Expr)}, erasableKeywords async false ks = true →
    eraseKeywords ks = ks
  | [], _ => rfl
  | (k, e) :: rest, h => by
      simp only [erasableKeywords, Bool.and_eq_true] at h
      simp only [eraseKeywords, erase_eq h.1, eraseKeywords_eq h.2]

end

/-- What is awaited has nothing to erase. -/
theorem erase_of_starts {e : Expr} (h : e.starts async false = true)
    (hrun : Builtin.run.name ∉ async) : e.erase = e := by
  obtain ⟨f, own, args, keywords, site, rfl, hf, hargs, hkeywords⟩ := of_starts h
  have hne : f ≠ Builtin.run.name := fun e => hrun (e ▸ hf)
  rw [erase_call (ran?_of_isRun (isRun_of_ne hne own) _ _), eraseAll_eq hargs]
  cases keywords with
  | none => rfl
  | some ks => rw [Option.map_some, eraseKeywords_eq (hkeywords ks rfl)]; rfl

end Expr

/-- A statement without awaits that runs nothing has nothing to erase. -/
theorem Stmt.erase_eq {async : List String} {s : Stmt}
    (h : s.erasable async false = true) (ha : ∀ target value site, s ≠ .await target value site) :
    s.erase = s := by
  cases s with
  | assign name value site => simp only [Stmt.erase, Expr.erase_eq h]
  | expr value site => simp only [Stmt.erase, Expr.erase_eq h]
  | ret value site =>
      cases value with
      | none => rfl
      | some e => simp only [Stmt.erase, Option.map_some, Expr.erase_eq (show e.erasable _ _ = true from h)]
  | assert test message site =>
      simp only [Stmt.erasable, Bool.and_eq_true] at h
      cases message with
      | none => simp only [Stmt.erase, Expr.erase_eq h.1, Option.map_none]
      | some e =>
          simp only [Stmt.erase, Option.map_some, Expr.erase_eq h.1,
            Expr.erase_eq (show e.erasable _ _ = true from h.2)]
  | await target value site => exact (ha target value site rfl).elim

end Coroutines
