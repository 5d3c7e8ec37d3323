import Coroutines.Inputs
import Coroutines.Proofs.Bindings
import Coroutines.Script.Evaluation
import Mathlib.Data.List.Forall2
import Mathlib.Data.List.Nodup

/-!
# Inputs from the command line

A text is an input if it gives a name and JSON data without objects (`Inputs.Accepted`); the value of the data is
that of the expression that writes it down.  Texts are taken one after the other, and the first that cannot be
taken is refused for the first thing that is wrong with it (`Inputs.parse_exact`).
-/

namespace Coroutines

namespace Json

/-! ### Data and expressions -/

mutual

/-- The data holds no object, at any depth. -/
def ObjectFree : Json → Prop
  | .array items => AllObjectFree items
  | .object _ => False
  | _ => True

def AllObjectFree : List Json → Prop
  | [] => True
  | j :: rest => j.ObjectFree ∧ AllObjectFree rest

end

mutual

/-- The expression that writes data down: a constant, not marked as a float, or a list of expressions.  None writes
an object. -/
def expr? : Json → Option Expr
  | .null => some (.const .none none)
  | .bool b => some (.const (.bool b) none)
  | .number n => some (.const (.number n) none)
  | .text s => some (.const (.text s) none)
  | .array items => (exprs? items).map .list
  | .object _ => none

def exprs? : List Json → Option (List Expr)
  | [] => some []
  | j :: rest =>
    match j.expr?, exprs? rest with
    | some e, some es => some (e :: es)
    | _, _ => none

end

end Json

/-- The expression has a value, wherever it is evaluated. -/
def Expr.Evaluates (e : Expr) (v : Value) : Prop :=
  ∀ (p : Program) (call : Calls) (scope : Scope) (enclosing : Option Site),
    p.evalExpr call scope enclosing e = pure v

/-- The expressions have values, one each. -/
def Expr.AllEvaluate (es : List Expr) (vs : List Value) : Prop :=
  ∀ (p : Program) (call : Calls) (scope : Scope) (enclosing : Option Site),
    p.evalExprs call scope enclosing es = pure vs

namespace Expr

theorem Evaluates.unique {e : Expr} {v w : Value} (h : e.Evaluates v) (h' : e.Evaluates w) : v = w := by
  let p : Program := ⟨⟨"", "", none, [], []⟩, [], []⟩
  have hsame : (pure v : Script Value) = pure w :=
    (h p (fun _ _ _ => .abort .outOfFuel) ⟨"", [], .module⟩ none).symm.trans (h' ..)
  cases hsame
  rfl

end Expr

namespace Value

mutual

theorem ofJson?_of_objectFree : ∀ j : Json, j.ObjectFree →
    ∃ v e, ofJson? j = some v ∧ j.expr? = some e ∧ e.Evaluates v
  | .null, _ | .bool _, _ | .text _, _ => ⟨_, _, rfl, rfl, fun _ _ _ _ => rfl⟩
  | .number n, _ => by
      have hconstant : Program.constant Option.none (.number n) =
          if n.isInteger then .int (.ofNumber n) else .float n := by
        show (if decide (Option.none = some true) || !n.isInteger then float n else int (.ofNumber n)) = _
        cases n.isInteger <;> rfl
      exact ⟨_, _, rfl, rfl, fun p call scope site => congrArg pure hconstant⟩
  | .array items, h => by
      obtain ⟨vs, es, hvs, hes, heval⟩ := itemsOfJson?_of_objectFree items h
      refine ⟨.list vs, .list es, by rw [ofJson?, hvs]; rfl, by rw [Json.expr?, hes]; rfl,
        fun p call scope site => ?_⟩
      show (p.evalExprs call scope site es).bind _ = _
      rw [heval]
      rfl
  | .object _, h => h.elim

theorem itemsOfJson?_of_objectFree : ∀ js : List Json, Json.AllObjectFree js →
    ∃ vs es, itemsOfJson? js = some vs ∧ Json.exprs? js = some es ∧ Expr.AllEvaluate es vs
  | [], _ => ⟨[], [], rfl, rfl, fun _ _ _ _ => rfl⟩
  | j :: rest, h => by
      obtain ⟨v, e, hv, he, heval⟩ := ofJson?_of_objectFree j h.1
      obtain ⟨vs, es, hvs, hes, hevals⟩ := itemsOfJson?_of_objectFree rest h.2
      refine ⟨v :: vs, e :: es, by rw [itemsOfJson?, hv, hvs], by rw [Json.exprs?, he, hes],
        fun p call scope site => ?_⟩
      show (p.evalExpr call scope site e).bind (fun v => (p.evalExprs call scope site es).bind _) = _
      rw [heval, hevals]
      rfl

end

mutual

theorem objectFree_of_ofJson? : ∀ {j : Json} {v : Value}, ofJson? j = some v → j.ObjectFree
  | .null, _, _ | .bool _, _, _ | .number _, _, _ | .text _, _, _ => trivial
  | .array items, _, h => by
      obtain ⟨vs, hvs, -⟩ := Option.map_eq_some_iff.mp h
      exact allObjectFree_of_itemsOfJson? hvs
  | .object _, _, h => by cases h

theorem allObjectFree_of_itemsOfJson? : ∀ {js : List Json} {vs : List Value},
    itemsOfJson? js = some vs → Json.AllObjectFree js
  | [], _, _ => trivial
  | j :: rest, _, h => by
      rw [itemsOfJson?] at h
      split at h
      · next hv hvs => exact ⟨objectFree_of_ofJson? hv, allObjectFree_of_itemsOfJson? hvs⟩
      · cases h

end

/-- Data has a value exactly if it holds no object, and then that of its expression. -/
theorem ofJson?_eq_some_iff {j : Json} {v : Value} :
    ofJson? j = some v ↔ j.ObjectFree ∧ ∃ e, j.expr? = some e ∧ e.Evaluates v := by
  constructor
  · intro h
    have hfree := objectFree_of_ofJson? h
    obtain ⟨w, e, hw, he, heval⟩ := ofJson?_of_objectFree j hfree
    obtain rfl : v = w := Option.some.inj (h.symm.trans hw)
    exact ⟨hfree, e, he, heval⟩
  · rintro ⟨hfree, e, he, heval⟩
    obtain ⟨w, e', hw, he', heval'⟩ := ofJson?_of_objectFree j hfree
    obtain rfl : e = e' := Option.some.inj (he.symm.trans he')
    rw [hw, heval.unique heval']

end Value

namespace Inputs

/-! ### One text -/

/-- The text begins with a name, which is not empty, and goes on with data after the first equals sign. -/
structure Gives (spec name data : String) : Prop where
  text : spec = name ++ "=" ++ data
  first : '=' ∉ name.toList
  named : name ≠ ""

theorem split?_eq_some_iff {spec name data : String} : split? spec = some (name, data) ↔ Gives spec name data := by
  constructor
  · intro h
    simp only [split?] at h
    split at h
    · next c cs d ds hname hdata =>
        cases h
        have hsign := List.head?_dropWhile_not (· ≠ '=') spec.toList
        rw [hdata] at hsign
        obtain rfl : d = '=' := by simpa using hsign
        have hwhole := @List.takeWhile_append_dropWhile _ (· ≠ '=') spec.toList
        rw [hname, hdata] at hwhole
        refine ⟨?_, fun hmem => ?_, by simp [← String.toList_inj]⟩
        · simp [← String.toList_inj, ← hwhole]
        · rw [String.toList_ofList, ← hname] at hmem
          simpa using List.all_eq_true.mp List.all_takeWhile _ hmem
    · cases h
  · rintro ⟨rfl, hfirst, hnamed⟩
    have hbefore : ∀ c ∈ name.toList, decide (c ≠ '=') = true := fun c hc =>
      decide_eq_true fun heq => hfirst (heq ▸ hc)
    have hlist : (name ++ "=" ++ data).toList = name.toList ++ '=' :: data.toList := by simp
    have hsign : ('=' :: data.toList).takeWhile (· ≠ '=') = [] ∧
        ('=' :: data.toList).dropWhile (· ≠ '=') = '=' :: data.toList := by simp
    simp only [split?, hlist, List.takeWhile_append_of_pos hbefore, List.dropWhile_append_of_pos hbefore, hsign,
      List.append_nil]
    cases hname : name.toList with
    | nil => exact absurd (String.toList_inj.mp hname) hnamed
    | cons c cs =>
        simp only [← hname, String.ofList_toList]

/-- The text gives a name and data without objects, and a value, which is that of the expression of the data. -/
def Accepted (spec : String) (entry : String × Value) : Prop :=
  ∃ data j e, Gives spec entry.1 data ∧ Json.parse? data = some j ∧ j.ObjectFree ∧ j.expr? = some e ∧
    e.Evaluates entry.2

theorem Accepted.unique {spec : String} {entry other : String × Value} (h : Accepted spec entry)
    (h' : Accepted spec other) : entry = other := by
  obtain ⟨data, j, e, hgives, hdata, -, he, heval⟩ := h
  obtain ⟨data', j', e', hgives', hdata', -, he', heval'⟩ := h'
  have hsplit := (split?_eq_some_iff.mpr hgives).symm.trans (split?_eq_some_iff.mpr hgives')
  obtain ⟨hname, rfl⟩ := Prod.mk.inj (Option.some.inj hsplit)
  obtain rfl : j = j' := Option.some.inj (hdata.symm.trans hdata')
  obtain rfl : e = e' := Option.some.inj (he.symm.trans he')
  exact Prod.ext hname (heval.unique heval')

/-- The first thing that is wrong with a text, where some names have been given before. -/
inductive Refused (names : List String) (spec : String) : InputError → Prop
  | malformed (h : ∀ name data, ¬ Gives spec name data) : Refused names spec (.malformed spec)
  | repeated {name data : String} (h : Gives spec name data) (hname : name ∈ names) :
    Refused names spec (.repeated name)
  | notJson {name data : String} (h : Gives spec name data) (hname : name ∉ names)
      (hdata : Json.parse? data = none) : Refused names spec (.notJson name)
  | notData {name data : String} {j : Json} (h : Gives spec name data) (hname : name ∉ names)
      (hdata : Json.parse? data = some j) (hj : ¬ j.ObjectFree) : Refused names spec (.notData name)

section

variable {spec : String} {rest : List String} {bound : Bindings Value} {entry : String × Value} {e : InputError}

theorem parseFrom_of_accepted (h : Accepted spec entry) (hname : entry.1 ∉ bound.names) :
    parseFrom bound (spec :: rest) = parseFrom (bound ++ [entry]) rest := by
  obtain ⟨name, v⟩ := entry
  obtain ⟨data, j, e, hgives, hdata, hfree, he, heval⟩ := h
  have hvalue : value name data = .ok v := by
    simp only [value, hdata, Value.ofJson?_eq_some_iff.mpr ⟨hfree, e, he, heval⟩]
  rw [parseFrom, split?_eq_some_iff.mpr hgives]
  simp only [Bindings.has_eq_false hname, hvalue, Bindings.set_of_not_mem hname]
  rfl

theorem parseFrom_of_refused (h : Refused bound.names spec e) : parseFrom bound (spec :: rest) = .error e := by
  rw [parseFrom]
  cases h with
  | malformed h =>
      cases hsplit : split? spec with
      | none => rfl
      | some p => exact absurd (split?_eq_some_iff.mp hsplit) (h _ _)
  | repeated h hname =>
      simp only [split?_eq_some_iff.mpr h, Bindings.has_iff.mpr hname, if_true]
  | notJson h hname hdata =>
      simp only [split?_eq_some_iff.mpr h, Bindings.has_eq_false hname, value, hdata]
      rfl
  | notData h hname hdata hj =>
      have hnone : Value.ofJson? _ = none :=
        Option.eq_none_iff_forall_ne_some.mpr fun v hv => hj (Value.ofJson?_eq_some_iff.mp hv).1
      simp only [split?_eq_some_iff.mpr h, Bindings.has_eq_false hname, value, hdata, hnone]
      rfl

theorem accepted_or_refused (names : List String) (spec : String) :
    (∃ entry, Accepted spec entry ∧ entry.1 ∉ names) ∨ ∃ e, Refused names spec e := by
  cases hsplit : split? spec with
  | none =>
      refine .inr ⟨_, .malformed fun name data h => ?_⟩
      rw [split?_eq_some_iff.mpr h] at hsplit
      cases hsplit
  | some p =>
      obtain ⟨name, data⟩ := p
      have hgives := split?_eq_some_iff.mp hsplit
      by_cases hname : name ∈ names
      · exact .inr ⟨_, .repeated hgives hname⟩
      cases hdata : Json.parse? data with
      | none => exact .inr ⟨_, .notJson hgives hname hdata⟩
      | some j =>
          by_cases hj : j.ObjectFree
          · obtain ⟨v, e, -, he, heval⟩ := Value.ofJson?_of_objectFree j hj
            exact .inl ⟨(name, v), ⟨data, j, e, hgives, hdata, hj, he, heval⟩, hname⟩
          · exact .inr ⟨_, .notData hgives hname hdata hj⟩

end

/-! ### Texts one after the other -/

variable {specs before after : List String} {bound entries : Bindings Value} {spec : String} {e : InputError}

/-- The texts are accepted with some entries, and no name comes twice, counting those that are bound. -/
def Taken (bound : Bindings Value) (specs : List String) (entries : Bindings Value) : Prop :=
  List.Forall₂ Accepted specs entries ∧ (bound ++ entries).names.Nodup

/-- A text is the first to be refused, with an error. -/
def Stopped (bound : Bindings Value) (specs : List String) (e : InputError) : Prop :=
  ∃ before spec after entries, specs = before ++ spec :: after ∧ Taken bound before entries ∧
    Refused (bound ++ entries).names spec e

theorem Taken.parseFrom (h : Taken bound before entries) (rest : List String) :
    parseFrom bound (before ++ rest) = parseFrom (bound ++ entries) rest := by
  obtain ⟨haccepted, hnames⟩ := h
  induction haccepted generalizing bound with
  | nil => rw [List.append_nil, List.nil_append]
  | @cons spec entry before entries hspec _ ih =>
      have hsplit : bound ++ entry :: entries = bound ++ [entry] ++ entries := by simp
      have hname : entry.1 ∉ bound.names := by
        rw [Bindings.names, List.map_append, List.nodup_append] at hnames
        exact fun hmem => hnames.2.2 _ hmem _ (by simp) rfl
      rw [hsplit] at hnames ⊢
      rw [List.cons_append, parseFrom_of_accepted hspec hname, ih hnames]

theorem taken_or_stopped (bound : Bindings Value) (hbound : bound.names.Nodup) (specs : List String) :
    (∃ entries, Taken bound specs entries) ∨ ∃ e, Stopped bound specs e := by
  induction specs generalizing bound with
  | nil => exact .inl ⟨[], .nil, by simpa using hbound⟩
  | cons spec rest ih =>
      rcases accepted_or_refused bound.names spec with ⟨entry, hspec, hname⟩ | ⟨e, he⟩
      · have hnames : (bound ++ [entry]).names.Nodup := by
          rw [Bindings.names, List.map_append, List.nodup_append]
          exact ⟨hbound, List.nodup_singleton _, fun n hn m hm => by
            obtain rfl : m = entry.1 := by simpa using hm
            exact fun heq => hname (heq ▸ hn)⟩
        have hcons : ∀ {entries : Bindings Value},
            bound ++ [entry] ++ entries = bound ++ entry :: entries := by simp
        rcases ih _ hnames with ⟨entries, haccepted, hall⟩ | ⟨e, before, spec', after, entries, rfl, htaken, he⟩
        · exact .inl ⟨entry :: entries, .cons hspec haccepted, hcons ▸ hall⟩
        · exact .inr ⟨e, spec :: before, spec', after, entry :: entries, rfl,
            ⟨.cons hspec htaken.1, hcons ▸ htaken.2⟩, hcons ▸ he⟩
      · exact .inr ⟨e, [], spec, rest, [], rfl, ⟨.nil, by simpa using hbound⟩, by simpa using he⟩

/-- The entries are those that the texts are accepted with. -/
theorem Taken.mem_iff {entry : String × Value} (h : Taken bound specs entries) :
    entry ∈ entries ↔ ∃ spec ∈ specs, Accepted spec entry := by
  have haccepted := h.1
  clear h
  induction haccepted with
  | nil => simp
  | @cons spec other specs entries hspec _ ih =>
      have hhead : Accepted spec entry ↔ entry = other := ⟨fun h => h.unique hspec, fun h => h ▸ hspec⟩
      simp only [List.mem_cons, ih, exists_eq_or_imp, hhead]

theorem Taken.parse (h : Taken [] specs entries) : parse specs = .ok (Bindings.indexFirst entries) := by
  have hall := h.parseFrom []
  rw [List.append_nil, List.nil_append] at hall
  rw [Inputs.parse, hall]
  rfl

theorem Stopped.parse (h : Stopped [] specs e) : parse specs = .error e := by
  obtain ⟨before, spec, after, entries, rfl, htaken, he⟩ := h
  rw [Inputs.parse, htaken.parseFrom, parseFrom_of_refused he]
  rfl

theorem parse_eq_ok_iff {b : Bindings Value} :
    parse specs = .ok b ↔ ∃ entries, Taken [] specs entries ∧ b = entries.indexFirst := by
  constructor
  · intro h
    rcases taken_or_stopped [] List.nodup_nil specs with ⟨entries, htaken⟩ | ⟨e, hstopped⟩
    · exact ⟨entries, htaken, Except.ok.inj (h.symm.trans htaken.parse)⟩
    · rw [hstopped.parse] at h
      cases h
  · rintro ⟨entries, htaken, rfl⟩
    exact htaken.parse

theorem parse_eq_error_iff : parse specs = .error e ↔ Stopped [] specs e := by
  refine ⟨fun h => ?_, Stopped.parse⟩
  rcases taken_or_stopped [] List.nodup_nil specs with ⟨entries, htaken⟩ | ⟨e', hstopped⟩
  · rw [htaken.parse] at h
    cases h
  · rw [hstopped.parse] at h
    cases h
    exact hstopped

/-- **Inputs are taken exactly.**  For any texts:

* they are taken exactly if each of them begins with a name, which is not empty, and an equals sign, the names
  are all different, and what follows is JSON data without objects, at any depth; the result holds the entries
  of the texts, its index keys first;
* then it binds exactly these names, each once, to the value that the expression of the data has wherever it is
  evaluated;
* else they are refused for the first text that cannot be taken, and of it for the first thing that is wrong: the
  form, a name given before, the JSON or an object in it. -/
theorem parse_exact (specs : List String) :
    (∀ b, parse specs = .ok b ↔ ∃ entries : Bindings Value, List.Forall₂ Accepted specs entries ∧
      entries.names.Nodup ∧ b = entries.indexFirst) ∧
    (∀ b, parse specs = .ok b → b.names.Nodup ∧
      ∀ name v, b.get? name = some v ↔ ∃ spec ∈ specs, Accepted spec (name, v)) ∧
    ∀ e, parse specs = .error e ↔ ∃ before spec after, ∃ entries : Bindings Value,
      specs = before ++ spec :: after ∧ List.Forall₂ Accepted before entries ∧ entries.names.Nodup ∧
        Refused entries.names spec e := by
  refine ⟨fun b => ?_, fun b hb => ?_, fun e => ?_⟩
  · rw [parse_eq_ok_iff]
    simp only [Taken, List.nil_append, and_assoc]
  · obtain ⟨entries, htaken, rfl⟩ := parse_eq_ok_iff.mp hb
    have hperm := Bindings.perm_indexFirst entries
    have hnames : entries.indexFirst.names.Nodup := (hperm.map Prod.fst).nodup_iff.mpr htaken.2
    refine ⟨hnames, fun name v => ?_⟩
    rw [Bindings.get?_eq_some_iff hnames, hperm.mem_iff]
    exact htaken.mem_iff
  · rw [parse_eq_error_iff]
    simp only [Stopped, Taken, List.nil_append, and_assoc]

end Inputs

end Coroutines
