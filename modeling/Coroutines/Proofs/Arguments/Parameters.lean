import Coroutines.Proofs.Bindings
import Coroutines.Script.Evaluation

/-!
# Parameters of functions

Which calls fit the parameters of a function (`FunctionDecl.Fits`), what such a call binds
(`FunctionDecl.Binds`), and what the other calls are refused for (`FunctionDecl.Refuses`).  A call starts the
body, or makes the coroutine, exactly if it fits (`Program.callFunction_exact`).
-/

namespace Coroutines

/-! ### Names in a sentence -/

/-- The names after the first of at least three, as a sentence lists them. -/
inductive Enumerated : List String → String → Prop
  | last (a : String) : Enumerated [a] s!", and '{a}'"
  | next (a : String) {rest : List String} {text : String} (h : Enumerated rest text) :
    Enumerated (a :: rest) s!", '{a}'{text}"

/-- Quoted names as a sentence lists them, in their order: one name, two of them, or more. -/
inductive Listed : List String → String → Prop
  | one (a : String) : Listed [a] s!"'{a}'"
  | two (a b : String) : Listed [a, b] s!"'{a}' and '{b}'"
  | more (a b c : String) {rest : List String} {text : String} (h : Enumerated (b :: c :: rest) text) :
    Listed (a :: b :: c :: rest) s!"'{a}'{text}"

theorem Enumerated.unique {names : List String} {text text' : String} (h : Enumerated names text)
    (h' : Enumerated names text') : text = text' := by
  induction h generalizing text' with
  | last a =>
      cases h' with
      | last => rfl
      | next _ hnil => cases hnil
  | next a h ih =>
      cases h' with
      | last => cases h
      | next _ h' => rw [ih h']

theorem Listed.unique {names : List String} {text text' : String} (h : Listed names text)
    (h' : Listed names text') : text = text' := by
  cases h with
  | one => cases h'; rfl
  | two => cases h'; rfl
  | more a b c h => cases h' with | more _ _ _ h' => rw [h.unique h']

/-- Names after another one, joined as the quoting joins them. -/
theorem exists_enumerated (a b : String) (rest : List String) : ∃ text, Enumerated (b :: rest) text ∧
    ", ".intercalate ((a :: b :: rest).map fun n => s!"'{n}'").dropLast ++ ", and " ++
      ((a :: b :: rest).map fun n => s!"'{n}'").getLastD "" = s!"'{a}'{text}" := by
  induction rest generalizing a b with
  | nil =>
      refine ⟨_, .last b, String.ext ?_⟩
      simp [toString]
  | cons c rest ih =>
      obtain ⟨text, htext, heq⟩ := ih b c
      refine ⟨_, .next b htext, String.ext ?_⟩
      have hlist := congrArg String.toList heq
      simp only [List.map_cons, List.dropLast_cons_cons, String.intercalate_cons_cons,
        List.getLastD_cons, String.toList_append, toString] at hlist ⊢
      simp only [List.append_assoc, hlist]
      rfl

/-- Names are quoted as a sentence lists them. -/
theorem listed_quoteNames {names : List String} (h : names ≠ []) : Listed names (quoteNames names) := by
  match names, h with
  | [a], _ => exact .one a
  | [a, b], _ => exact .two a b
  | a :: b :: c :: rest, _ =>
      obtain ⟨text, htext, heq⟩ := exists_enumerated a b (c :: rest)
      have hquote : quoteNames (a :: b :: c :: rest) = s!"'{a}'{text}" := heq ▸ rfl
      exact hquote ▸ .more a b c htext

namespace FunctionDecl

variable {fn : FunctionDecl} {args : List Value} {kwargs : Bindings Value} {f : Failure}

/-! ### Calls that fit -/

/-- A call fits the parameters: no argument is left over, every keyword names a parameter that no positional
argument binds, and every parameter is bound. -/
structure Fits (fn : FunctionDecl) (args : List Value) (kwargs : Bindings Value) : Prop where
  count : args.length ≤ fn.params.length
  known : ∀ k ∈ kwargs.names, k ∈ fn.params
  free : ∀ k ∈ kwargs.names, k ∉ fn.params.take args.length
  bound : ∀ x ∈ fn.params, x ∈ fn.params.take args.length ∨ x ∈ kwargs.names

/-- The first locals of a call: every parameter once, the first ones with the positional arguments in their
order and each other one with the value of its keyword. -/
structure Binds (fn : FunctionDecl) (args : List Value) (kwargs locals : Bindings Value) : Prop where
  names : locals.names.Perm fn.params
  positional : ∀ (i : Nat) x v, fn.params[i]? = some x → args[i]? = some v → locals.get? x = some v
  keyword : ∀ (i : Nat) x, args.length ≤ i → fn.params[i]? = some x →
    ∃ v, kwargs.get? x = some v ∧ locals.get? x = some v

/-- The parameters that a call leaves unbound, in the order of their declaration. -/
def unbound (fn : FunctionDecl) (args : List Value) (kwargs : Bindings Value) : List String :=
  (fn.params.drop args.length).filter (· ∉ kwargs.names)

/-- A keyword that can be bound after the positional arguments. -/
def Takes (fn : FunctionDecl) (args : List Value) (k : String) : Prop :=
  k ∈ fn.params ∧ k ∉ fn.params.take args.length

instance (k : String) : Decidable (fn.Takes args k) := inferInstanceAs (Decidable (_ ∧ _))

/-- What a call is refused for: arguments that are left over, then the first keyword that is unknown or bound
already, then the parameters without an argument. -/
inductive Refuses (fn : FunctionDecl) (args : List Value) (kwargs : Bindings Value) : Failure → Prop
  | surplus (h : fn.params.length < args.length) : Refuses fn args kwargs (fn.surplusFailure args.length)
  | unknown (hcount : args.length ≤ fn.params.length) {before after : List String} {k : String}
      (hnames : kwargs.names = before ++ k :: after) (hbefore : ∀ b ∈ before, fn.Takes args b)
      (hk : k ∉ fn.params) : Refuses fn args kwargs (.unexpectedKeyword fn.name k)
  | duplicate (hcount : args.length ≤ fn.params.length) {before after : List String} {k : String}
      (hnames : kwargs.names = before ++ k :: after) (hbefore : ∀ b ∈ before, fn.Takes args b)
      (hk : k ∈ fn.params.take args.length) : Refuses fn args kwargs (.duplicateArgument fn.name k)
  | missing (hcount : args.length ≤ fn.params.length) (hkeywords : ∀ k ∈ kwargs.names, fn.Takes args k)
      {n : Nat} (hn : n = (fn.unbound args kwargs).length) (hsome : 0 < n) {names s : String}
      (hnames : Listed (fn.unbound args kwargs) names) (hs : s = if n = 1 then "" else "s") :
    Refuses fn args kwargs (.arity fn.name fn.params.length (some fn.params.length) args.length
      (some s!"{fn.name}() missing {n} required positional argument{s}: {names}"))

/-! ### Binding one after the other -/

/-- Positional arguments name the first parameters. -/
theorem names_zip (params : List String) (args : List Value) :
    Bindings.names (params.zip args) = params.take args.length := by
  induction params generalizing args with
  | nil => rw [List.take_nil]; rfl
  | cons x rest ih =>
      cases args with
      | nil => rfl
      | cons v args => exact congrArg (x :: ·) (ih args)

theorem names_append (b c : Bindings Value) : Bindings.names (b ++ c) = b.names ++ c.names :=
  List.map_append

/-- Keywords that name parameters not yet bound are bound in their order, before what comes after them. -/
theorem bindKeywords_append {locals before after : Bindings Value} (hnames : before.names.Nodup)
    (hknown : ∀ k ∈ before.names, k ∈ fn.params) (hfree : ∀ k ∈ before.names, k ∉ locals.names) :
    fn.bindKeywords locals (before ++ after) = fn.bindKeywords (locals ++ before) after := by
  induction before generalizing locals with
  | nil => rw [List.append_nil, List.nil_append]
  | cons e rest ih =>
      obtain ⟨k, v⟩ := e
      obtain ⟨hk, hrest⟩ := List.nodup_cons.mp hnames
      have hmem : k ∈ fn.params := hknown k List.mem_cons_self
      have hnot : k ∉ locals.names := hfree k List.mem_cons_self
      have hhas : ¬ locals.has k = true := fun h => hnot (Bindings.has_iff.mp h)
      rw [List.cons_append, bindKeywords, if_neg (by simpa using hmem), if_neg hhas,
        Bindings.set_of_not_mem hnot, ih hrest, List.append_assoc, List.singleton_append]
      · exact fun k' hk' => hknown k' (List.mem_cons_of_mem _ hk')
      · intro k' hk' hlocals
        rw [names_append, List.mem_append] at hlocals
        rcases hlocals with hlocals | hlocals
        · exact hfree k' (List.mem_cons_of_mem _ hk') hlocals
        · exact hk (List.mem_singleton.mp hlocals ▸ hk')

/-- Where the arguments do not outnumber the parameters, those before the keywords are bound as they come. -/
theorem bindParams_of_count (hparams : fn.params.Nodup) (hcount : args.length ≤ fn.params.length) :
    fn.bindParams args kwargs =
      match fn.bindKeywords (fn.params.zip args) kwargs with
      | .error f => .error f
      | .ok locals =>
        match fn.params.filter (!locals.has ·) with
        | [] => .ok locals
        | missing => .error (fn.missingFailure args.length missing) := by
  have hfirst : Bindings.ofList (fn.params.zip args) = fn.params.zip args := by
    refine Bindings.ofList_of_nodup ?_
    have hnames := hparams.sublist (List.take_sublist args.length fn.params)
    rwa [← names_zip] at hnames
  rw [← hfirst]
  exact if_neg (Nat.not_lt.mpr hcount)

/-- Keywords that can be bound are bound before what comes after them. -/
theorem bindKeywords_of_takes {before after : Bindings Value} (hnames : (before ++ after).map Prod.fst |>.Nodup)
    (hbefore : ∀ k ∈ before.names, fn.Takes args k) :
    fn.bindKeywords (fn.params.zip args) (before ++ after) =
      fn.bindKeywords (fn.params.zip args ++ before) after := by
  rw [List.map_append] at hnames
  refine bindKeywords_append (List.nodup_append.mp hnames).1 (fun k hk => (hbefore k hk).1) fun k hk => ?_
  rw [names_zip]
  exact (hbefore k hk).2

/-- What is bound after positional arguments and keywords. -/
theorem has_iff_bound {before : Bindings Value} {x : String} :
    Bindings.has (fn.params.zip args ++ before) x = true ↔
      x ∈ fn.params.take args.length ∨ x ∈ before.names := by
  rw [Bindings.has_iff, names_append, names_zip, List.mem_append]

/-- No other parameter has the name of a first one. -/
theorem not_mem_take (hparams : fn.params.Nodup) {given : Nat} {x : String} (hx : x ∈ fn.params.drop given) :
    x ∉ fn.params.take given := by
  rw [← List.take_append_drop given fn.params] at hparams
  exact fun ht => (List.nodup_append.mp hparams).2.2 x ht x hx rfl

/-- What is left after the keywords are the parameters that the call leaves unbound. -/
theorem filter_not_has (hparams : fn.params.Nodup) :
    fn.params.filter (!Bindings.has (fn.params.zip args ++ kwargs) ·) = fn.unbound args kwargs := by
  have hsplit : fn.params.take args.length ++ fn.params.drop args.length = fn.params :=
    List.take_append_drop ..
  have hfirst : (fn.params.take args.length).filter (!Bindings.has (fn.params.zip args ++ kwargs) ·) = [] := by
    refine List.filter_eq_nil_iff.mpr fun x hx => ?_
    rw [has_iff_bound.mpr (.inl hx)]
    decide
  have hrest : (fn.params.drop args.length).filter (!Bindings.has (fn.params.zip args ++ kwargs) ·) =
      fn.unbound args kwargs := by
    refine List.filter_congr fun x hx => ?_
    rw [Bool.eq_iff_iff, Bool.not_eq_true', ← Bool.not_eq_true, has_iff_bound, decide_eq_true_iff]
    exact not_congr (or_iff_right (not_mem_take hparams hx))
  calc fn.params.filter (!Bindings.has (fn.params.zip args ++ kwargs) ·)
      _ = (fn.params.take args.length ++ fn.params.drop args.length).filter
            (!Bindings.has (fn.params.zip args ++ kwargs) ·) := by rw [hsplit]
      _ = fn.unbound args kwargs := by rw [List.filter_append, hfirst, hrest, List.nil_append]

/-- Once all keywords can be bound, the call is decided by what is left. -/
theorem bindParams_of_takes (hparams : fn.params.Nodup) (hkwargs : kwargs.names.Nodup)
    (hcount : args.length ≤ fn.params.length) (htakes : ∀ k ∈ kwargs.names, fn.Takes args k) :
    fn.bindParams args kwargs =
      match fn.unbound args kwargs with
      | [] => .ok (fn.params.zip args ++ kwargs)
      | missing => .error (fn.missingFailure args.length missing) := by
  have hbind : fn.bindKeywords (fn.params.zip args) (kwargs ++ []) =
      fn.bindKeywords (fn.params.zip args ++ kwargs) [] :=
    bindKeywords_of_takes (by rwa [List.append_nil]) htakes
  rw [List.append_nil] at hbind
  rw [bindParams_of_count hparams hcount, hbind, bindKeywords]
  simp only [filter_not_has hparams]

/-- A call is refused for the first keyword that cannot be bound. -/
theorem bindParams_of_keyword (hparams : fn.params.Nodup) (hkwargs : kwargs.names.Nodup)
    (hcount : args.length ≤ fn.params.length) {before after : List String} {k : String}
    (hnames : kwargs.names = before ++ k :: after) (hbefore : ∀ b ∈ before, fn.Takes args b)
    (hk : ¬ fn.Takes args k) : fn.bindParams args kwargs =
      .error (if k ∈ fn.params then .duplicateArgument fn.name k else .unexpectedKeyword fn.name k) := by
  obtain ⟨front, back, rfl, rfl, hback⟩ := List.map_eq_append_iff.mp hnames
  obtain ⟨⟨k', v⟩, rest, rfl, hk', rfl⟩ := List.map_eq_cons_iff.mp hback
  subst hk'
  rw [bindParams_of_count hparams hcount, bindKeywords_of_takes hkwargs hbefore, bindKeywords]
  by_cases hmem : k' ∈ fn.params
  · have hbound : Bindings.has (fn.params.zip args ++ front) k' = true :=
      has_iff_bound.mpr (.inl (Classical.not_not.mp fun h => hk ⟨hmem, h⟩))
    rw [if_neg (by simpa using hmem), if_pos hbound, if_pos hmem]
  · rw [if_pos (by simpa using hmem), if_neg hmem]

/-! ### The outcome of a call -/

theorem Fits.takes (h : fn.Fits args kwargs) : ∀ k ∈ kwargs.names, fn.Takes args k :=
  fun k hk => ⟨h.known k hk, h.free k hk⟩

theorem Fits.unbound_eq_nil (h : fn.Fits args kwargs) (hparams : fn.params.Nodup) :
    fn.unbound args kwargs = [] := by
  refine List.filter_eq_nil_iff.mpr fun x hx => ?_
  rw [decide_eq_true_iff, Classical.not_not]
  exact (h.bound x (List.mem_of_mem_drop hx)).resolve_left (not_mem_take hparams hx)

theorem Fits.bindParams (h : fn.Fits args kwargs) (hparams : fn.params.Nodup)
    (hkwargs : kwargs.names.Nodup) : fn.bindParams args kwargs = .ok (fn.params.zip args ++ kwargs) := by
  rw [bindParams_of_takes hparams hkwargs h.count h.takes, h.unbound_eq_nil hparams]

/-- What a call that fits binds. -/
theorem Fits.binds (h : fn.Fits args kwargs) (hparams : fn.params.Nodup) (hkwargs : kwargs.names.Nodup) :
    fn.Binds args kwargs (fn.params.zip args ++ kwargs) := by
  have hnames : Bindings.names (fn.params.zip args ++ kwargs) = fn.params.take args.length ++ kwargs.names := by
    rw [names_append, names_zip]
  have hnodup : (Bindings.names (fn.params.zip args ++ kwargs)).Nodup := by
    rw [hnames]
    refine List.nodup_append.mpr ⟨hparams.sublist (List.take_sublist ..), hkwargs, fun x hx k hk e => ?_⟩
    exact h.free k hk (e ▸ hx)
  refine ⟨?_, fun i x v hx hv => ?_, fun i x hi hx => ?_⟩
  · refine (List.perm_ext_iff_of_nodup hnodup hparams).mpr fun x => ?_
    rw [hnames, List.mem_append]
    exact ⟨fun hx => hx.elim List.mem_of_mem_take (h.known x), h.bound x⟩
  · rw [Bindings.get?_eq_some_iff hnodup, List.mem_append]
    exact .inl (List.mem_of_getElem? (List.getElem?_zip_eq_some.mpr ⟨hx, hv⟩))
  · have hdrop : x ∈ fn.params.drop args.length := by
      refine List.mem_of_getElem? (i := i - args.length) ?_
      rwa [List.getElem?_drop, Nat.add_sub_of_le hi]
    have hkey := (h.bound x (List.mem_of_mem_drop hdrop)).resolve_left (not_mem_take hparams hdrop)
    obtain ⟨⟨_, v⟩, hv, rfl⟩ := List.mem_map.mp hkey
    refine ⟨v, (Bindings.get?_eq_some_iff hkwargs).mpr hv, ?_⟩
    rw [Bindings.get?_eq_some_iff hnodup]
    exact List.mem_append_right _ hv

theorem Refuses.bindParams (h : fn.Refuses args kwargs f) (hparams : fn.params.Nodup)
    (hkwargs : kwargs.names.Nodup) : fn.bindParams args kwargs = .error f := by
  cases h with
  | surplus h => rw [FunctionDecl.bindParams, if_pos h]
  | unknown hcount hnames hbefore hk =>
      rw [bindParams_of_keyword hparams hkwargs hcount hnames hbefore fun h => hk h.1, if_neg hk]
  | duplicate hcount hnames hbefore hk =>
      rw [bindParams_of_keyword hparams hkwargs hcount hnames hbefore fun h => h.2 hk,
        if_pos (List.mem_of_mem_take hk)]
  | missing hcount hkeywords hlength hsome hnames hs =>
      rw [bindParams_of_takes hparams hkwargs hcount hkeywords]
      cases hmissing : fn.unbound args kwargs with
      | nil => rw [hlength, hmissing] at hsome; cases hsome
      | cons x rest =>
          rw [hmissing] at hlength hnames
          subst hlength hs
          rw [hnames.unique (listed_quoteNames (List.cons_ne_nil x rest))]
          rfl

theorem fits_of_unbound_eq_nil (hcount : args.length ≤ fn.params.length)
    (htakes : ∀ k ∈ kwargs.names, fn.Takes args k) (h : fn.unbound args kwargs = []) :
    fn.Fits args kwargs where
  count := hcount
  known k hk := (htakes k hk).1
  free k hk := (htakes k hk).2
  bound x hx := by
    rw [← List.take_append_drop args.length fn.params, List.mem_append] at hx
    refine hx.imp_right fun hdrop => ?_
    have hnot := List.filter_eq_nil_iff.mp h x hdrop
    rwa [decide_eq_true_iff, Classical.not_not] at hnot

/-- A call that does not fit is refused for something. -/
theorem exists_refuses (h : ¬ fn.Fits args kwargs) : ∃ f, fn.Refuses args kwargs f := by
  by_cases hcount : args.length ≤ fn.params.length
  · cases hfirst : kwargs.names.find? (fun k => !decide (fn.Takes args k)) with
    | some k =>
        obtain ⟨hk, before, after, hnames, hbefore⟩ := List.find?_eq_some_iff_append.mp hfirst
        simp only [Bool.not_not, decide_eq_true_iff] at hbefore
        by_cases hmem : k ∈ fn.params
        · have hbound : ¬ k ∉ fn.params.take args.length := fun hnot => by
            simp [Takes, hmem, hnot] at hk
          exact ⟨_, .duplicate hcount hnames hbefore (Classical.not_not.mp hbound)⟩
        · exact ⟨_, .unknown hcount hnames hbefore hmem⟩
    | none =>
        have htakes : ∀ k ∈ kwargs.names, fn.Takes args k := by simpa using hfirst
        have hmissing : fn.unbound args kwargs ≠ [] :=
          fun hnil => h (fits_of_unbound_eq_nil hcount htakes hnil)
        have hlisted := listed_quoteNames hmissing
        exact ⟨_, .missing hcount htakes rfl (List.length_pos_iff.mpr hmissing) hlisted rfl⟩
  · exact ⟨_, .surplus (Nat.lt_of_not_le hcount)⟩

end FunctionDecl

namespace Program

/-- **Calls bind their arguments exactly.**  For any function whose parameters are distinct, any positional
arguments and any keywords under distinct names:

* either the call fits the parameters, and there is nothing to refuse it for, or it does not, and there is
  exactly one failure that it is refused with;
* a call that fits starts the body, or makes the coroutine, with locals that bind every parameter once, the
  first ones to the positional arguments and each other one to the value of its keyword;
* a call that is refused ends with its failure, before any statement of the body and without any request: every
  world is left as it was. -/
theorem callFunction_exact (p : Program) (call : Calls) (fn : FunctionDecl) (args : List Value)
    (kwargs : Bindings Value) (hparams : fn.params.Nodup) (hkwargs : kwargs.names.Nodup) :
    (fn.Fits args kwargs ∧ (¬ ∃ f, fn.Refuses args kwargs f) ∨
      ¬ fn.Fits args kwargs ∧ ∃ f, fn.Refuses args kwargs f ∧ ∀ g, fn.Refuses args kwargs g → g = f) ∧
    (fn.Fits args kwargs → ∃ locals, fn.Binds args kwargs locals ∧ fn.bindParams args kwargs = .ok locals ∧
      p.callFunction call fn args kwargs =
        if fn.isAsync then .spawn fn.name (.function fn) locals fun c => pure (.coroutine c)
        else p.runBody call ⟨fn.name, locals, .sync⟩ fn.body) ∧
    ∀ f, fn.Refuses args kwargs f → fn.bindParams args kwargs = .error f ∧
      p.callFunction call fn args kwargs = .abort (.raise f) ∧
      ∀ (runner : Runner Body Globals) (w : World Body Globals),
        (p.callFunction call fn args kwargs).perform runner w = (.error (.raise f), w) := by
  refine ⟨?_, fun hfits => ?_, fun f hf => ?_⟩
  · by_cases hfits : fn.Fits args kwargs
    · refine .inl ⟨hfits, fun ⟨f, hf⟩ => ?_⟩
      cases (hfits.bindParams hparams hkwargs).symm.trans (hf.bindParams hparams hkwargs)
    · obtain ⟨f, hf⟩ := FunctionDecl.exists_refuses hfits
      refine .inr ⟨hfits, f, hf, fun g hg => ?_⟩
      cases (hg.bindParams hparams hkwargs).symm.trans (hf.bindParams hparams hkwargs)
      rfl
  · have hbind := hfits.bindParams hparams hkwargs
    refine ⟨_, hfits.binds hparams hkwargs, hbind, ?_⟩
    rw [callFunction, hbind]
  · have hbind := hf.bindParams hparams hkwargs
    have hcall : p.callFunction call fn args kwargs = .abort (.raise f) := by rw [callFunction, hbind]
    exact ⟨hbind, hcall, fun runner w => by rw [hcall]; rfl⟩

/-- A call that leaves two parameters unbound.

```
def f(a, b, c, d):
    return a
f(1, c=2)
```
-/
def leaving : CompiledUnit where
  file := "leaving.py"
  source := "\n".intercalate ["def f(a, b, c, d):", "    return a", "f(1, c=2)"]
  inputs := none
  functions := [⟨"f", false, ["a", "b", "c", "d"], [.ret (some (.name "a" none)) none]⟩]
  module := [.expr (.call (.name "f" none) [.const (.number (.ofNat 1)) none]
    (some [("c", .const (.number (.ofNat 2)) none)]) ⟨.ofNat 3, .ofNat 0, .ofNat 9⟩) none]

theorem leaving_refused : (leaving.functions.map fun fn => (ofUnit leaving).callFunction
      ((ofUnit leaving).callValue 0) fn [.int (.ofNat 1)] [("c", .int (.ofNat 2))]) =
    [.abort (.raise (.arity "f" 4 (some 4) 1
      (some "f() missing 2 required positional arguments: 'b' and 'd'")))] := by
  let fn : FunctionDecl := ⟨"f", false, ["a", "b", "c", "d"], [.ret (some (.name "a" none)) none]⟩
  have hlength : 2 = (fn.unbound [.int (.ofNat 1)] [("c", .int (.ofNat 2))]).length := rfl
  have hnames : Listed (fn.unbound [.int (.ofNat 1)] [("c", .int (.ofNat 2))]) "'b' and 'd'" := .two "b" "d"
  have hs : "s" = if 2 = 1 then "" else "s" := rfl
  have hrefuses : fn.Refuses [.int (.ofNat 1)] [("c", .int (.ofNat 2))] _ :=
    .missing (by decide) (by decide) hlength Nat.two_pos hnames hs
  have hcall := ((callFunction_exact (ofUnit leaving) ((ofUnit leaving).callValue 0) fn _ _
    (by decide) (by decide)).2.2 _ hrefuses).2.1
  exact congrArg (fun a => [a]) hcall

end Program

end Coroutines
