import Coroutines.Proofs.Format.Definite
import Coroutines.Proofs.Format.Written

/-!
# Loading units

A unit file without an issue describes a well-formed unit, so loading gives one or says what is
wrong; and what is written for a unit is loaded as that unit (`UnitFile.load_faithful`).
-/

namespace Coroutines

/-- A number that may be infinite. -/
abbrev Number.Defined (n : Number) : Prop := n ≠ .nan

namespace UnitFile

/-! ## Checks that vouch for what is read -/

/-- A value that passes the check is read, and what is read has the property. -/
structure Vouches {α : Type} (check : Check) (read : Json → Option α) (P : α → Prop) : Prop where
  value : ∀ {path : List String} {j : Option Json}, (∀ v ∈ j, v.Definite) → check path j = [] →
    ∃ v, j.bind read = some v ∧ P v

section

variable {α : Type} {check : Check} {read : Json → Option α} {P : α → Prop} {j : Json}
  {path : List String} {key : String}

theorem Vouches.field (hc : Vouches check read P) (hj : j.Definite)
    (h : check path (j.get? key) = []) : ∃ v, j.field? key read = some v ∧ P v :=
  hc.value (hj.get? key) h

theorem Vouches.optional_field (hc : Vouches check read P) (hj : j.Definite)
    (h : optional check path (j.get? key) = []) :
    ∃ v, j.optional? key read = some v ∧ ∀ w ∈ v, P w := by
  have hget := hj.get? key
  unfold Json.optional?
  cases hv : j.get? key with
  | none => exact ⟨none, rfl, by simp⟩
  | some v =>
    rw [hv] at h hget
    obtain ⟨w, hw, hP⟩ := hc.value hget h
    rw [Option.bind_some] at hw
    exact ⟨some w, by simp [hw], by simpa using hP⟩

theorem mistyped_ne_nil {expected : String} {path : List String} {j : Option Json} :
    mistyped expected path j ≠ [] := by
  cases j <;> simp [mistyped]

theorem arrayOf_eq_nil {j : Option Json} (h : arrayOf check path j = []) :
    ∃ items, j = some (.array items) ∧ ∀ v ∈ items, ∃ path, check path (some v) = [] := by
  unfold arrayOf at h
  split at h
  · next items =>
    rw [List.flatMap_eq_nil_iff] at h
    refine ⟨items, rfl, fun v hv => ?_⟩
    obtain ⟨i, hi, e⟩ := List.getElem_of_mem hv
    exact ⟨_, h (v, i) (by rw [List.mem_zipIdx_iff_getElem?, List.getElem?_eq_getElem hi, e])⟩
  · exact absurd h mistyped_ne_nil

theorem Vouches.mapM (hc : Vouches check read P) {items : List Json}
    (hd : ∀ v ∈ items, v.Definite) (h : ∀ v ∈ items, ∃ path, check path (some v) = []) :
    ∃ l, items.mapM read = some l ∧ ∀ v ∈ l, P v := by
  induction items with
  | nil => exact ⟨[], rfl, by simp⟩
  | cons v items ih =>
    obtain ⟨path, hv⟩ := h v (by simp)
    obtain ⟨w, hw, hP⟩ := hc.value (by simpa using hd v (by simp)) hv
    obtain ⟨l, hl, hPs⟩ := ih (fun x hx => hd x (List.mem_cons_of_mem _ hx))
      fun x hx => h x (List.mem_cons_of_mem _ hx)
    rw [Option.bind_some] at hw
    exact ⟨w :: l, by simp [List.mapM_cons, hw, hl], List.forall_mem_cons.mpr ⟨hP, hPs⟩⟩

theorem Vouches.array (hc : Vouches check read P) :
    Vouches (arrayOf check) (Json.list? read) (fun l => ∀ v ∈ l, P v) := by
  refine ⟨fun {path j} hj h => ?_⟩
  obtain ⟨items, rfl, hclean⟩ := arrayOf_eq_nil h
  have hitems : ∀ v ∈ items, v.Definite := by
    cases hj _ rfl with
    | array h => exact h
  exact hc.mapM hitems hclean

end

theorem fields_cons {path : List String} {j : Json} {key : String} {check : Check}
    {checks : List (String × Check)} :
    fields path j ((key, check) :: checks) = [] ↔
      check (path ++ [key]) (j.get? key) = [] ∧ fields path j checks = [] := by
  simp only [fields, List.flatMap_cons, List.append_eq_nil_iff]

theorem object_eq_nil {checks : List (String × Check)} {path : List String} {j : Option Json}
    (h : object checks path j = []) : ∃ o, j = some o ∧ fields path o checks = [] := by
  unfold object at h
  split at h
  · exact ⟨_, rfl, h⟩
  · exact absurd h mistyped_ne_nil

theorem variant_eq_nil {kinds : List (String × List (String × Check))} {path : List String}
    {j : Option Json} (h : variant kinds path j = []) :
    ∃ o kind checks, j = some o ∧ o.field? "kind" Json.text? = some kind ∧
      Bindings.get? kinds kind = some checks ∧ fields path o checks = [] := by
  unfold variant at h
  split at h
  · split at h
    · next hk =>
      obtain ⟨kind, hkind, hchecks⟩ := Option.bind_eq_some_iff.mp hk
      exact ⟨_, kind, _, rfl, hkind, hchecks, h⟩
    · simp at h
  · exact absurd h mistyped_ne_nil

/-! ## The checks of a unit -/

theorem vouches_name : Vouches name Json.text? (· ≠ "") := by
  refine ⟨fun {path j} _ h => ?_⟩
  unfold name at h
  split at h
  · next s _ =>
    split at h
    · simp at h
    · next hs => exact ⟨s, rfl, by simpa [String.isEmpty_iff] using hs⟩
  · exact absurd h mistyped_ne_nil

theorem vouches_boolean : Vouches boolean Json.bool? (fun _ => True) := by
  refine ⟨fun {path j} _ h => ?_⟩
  unfold boolean at h
  split at h
  · exact ⟨_, rfl, trivial⟩
  · exact absurd h mistyped_ne_nil

theorem vouches_whole {least : Nat} (hl : least ≤ 1) :
    Vouches (whole least) Json.number? (Number.AtLeast least) := by
  refine ⟨fun {path j} _ h => ?_⟩
  unfold whole at h
  split at h
  · next n _ =>
    refine ⟨n, rfl, (Number.atLeast_iff hl).mpr ?_⟩
    simpa using h
  · exact absurd h mistyped_ne_nil

theorem vouches_literal : Vouches literal literal? (Literal.WellFormed Number.Defined) := by
  refine ⟨fun {path j} hj h => ?_⟩
  cases j with
  | none => simp [literal] at h
  | some j =>
    have hj := hj j rfl
    cases hj with
    | null => exact ⟨.none, rfl, trivial⟩
    | bool b => exact ⟨.bool b, rfl, trivial⟩
    | @number n hn => exact ⟨.number n, rfl, hn⟩
    | text s => exact ⟨.text s, rfl, trivial⟩
    | array | object => simp [literal, literal?] at h

theorem vouches_operator : Vouches operator operator? (fun _ => True) := by
  refine ⟨fun {path j} _ h => ?_⟩
  unfold operator at h
  split at h
  · next s _ =>
    split at h
    · next hs =>
      obtain ⟨op, hop⟩ := Option.isSome_iff_exists.mp hs
      exact ⟨op, hop, trivial⟩
    · simp at h
  · exact absurd h mistyped_ne_nil

theorem vouches_site : Vouches site site? Site.WellFormed := by
  refine ⟨fun {path j} hj h => ?_⟩
  obtain ⟨o, rfl, hfields⟩ := object_eq_nil h
  have ho := hj o rfl
  simp only [fields_cons] at hfields
  obtain ⟨hline, hcolumn, hend, -⟩ := hfields
  obtain ⟨line, hline, hl⟩ := (vouches_whole (Nat.le_refl 1)).field ho hline
  obtain ⟨column, hcolumn, hc⟩ := (vouches_whole (Nat.zero_le 1)).field ho hcolumn
  obtain ⟨endColumn, hend, he⟩ := (vouches_whole (Nat.zero_le 1)).field ho hend
  exact ⟨⟨line, column, endColumn⟩, by simp [site?, hline, hcolumn, hend], ⟨hl, hc, he⟩⟩

theorem vouches_keyword {levels : Nat} {P : Expr → Prop}
    (hc : Vouches (expr levels) (expr? levels) P) :
    Vouches (object [("name", name), ("value", expr levels)]) (keyword? (expr? levels))
      (fun k => k.1 ≠ "" ∧ P k.2) := by
  refine ⟨fun {path j} hj h => ?_⟩
  obtain ⟨o, rfl, hfields⟩ := object_eq_nil h
  have ho := hj o rfl
  simp only [fields_cons] at hfields
  obtain ⟨hname, hvalue, -⟩ := hfields
  obtain ⟨n, hname, hn⟩ := vouches_name.field ho hname
  obtain ⟨v, hvalue, hv⟩ := hc.field ho hvalue
  exact ⟨(n, v), by simp [keyword?, hname, hvalue], hn, hv⟩

/-- An expression without an issue is read as a well-formed one. -/
theorem vouches_expr (levels : Nat) :
    Vouches (expr levels) (expr? levels) (Expr.WellFormed Number.Defined) := by
  induction levels with
  | zero => exact ⟨fun _ h => by simp [expr] at h⟩
  | succ n ih =>
    refine ⟨fun {path j} hj h => ?_⟩
    have hitems := ih.array
    have hkeywords := (vouches_keyword ih).array
    obtain ⟨o, kind, checks, rfl, hkind, hchecks, hfields⟩ := variant_eq_nil h
    have ho := hj o rfl
    -- the kind is one of six, each with its own fields
    simp only [Bindings.get?] at hchecks
    split at hchecks
    · next e =>
      obtain rfl := Option.some.inj hchecks
      simp only [fields_cons] at hfields
      obtain ⟨hvalue, hfloat, -⟩ := hfields
      obtain ⟨value, hvalue, hv⟩ := vouches_literal.field ho hvalue
      obtain ⟨float, hfloat, -⟩ := vouches_boolean.optional_field ho hfloat
      exact ⟨.const value float, by simp [expr?, hkind, ← e, hvalue, hfloat], .const hv⟩
    split at hchecks
    · next e =>
      obtain rfl := Option.some.inj hchecks
      simp only [fields_cons] at hfields
      obtain ⟨hname, hat, -⟩ := hfields
      obtain ⟨s, hname, hs⟩ := vouches_name.field ho hname
      obtain ⟨at', hat, ha⟩ := vouches_site.optional_field ho hat
      exact ⟨.name s at', by simp [expr?, hkind, ← e, hname, hat], .name hs ha⟩
    split at hchecks
    · next e =>
      obtain rfl := Option.some.inj hchecks
      simp only [fields_cons] at hfields
      obtain ⟨es, hes, h⟩ := hitems.field ho hfields.1
      exact ⟨.list es, by simp [expr?, hkind, ← e, hes], .list h⟩
    split at hchecks
    · next e =>
      obtain rfl := Option.some.inj hchecks
      simp only [fields_cons] at hfields
      obtain ⟨es, hes, h⟩ := hitems.field ho hfields.1
      exact ⟨.tuple es, by simp [expr?, hkind, ← e, hes], .tuple h⟩
    split at hchecks
    · next e =>
      obtain rfl := Option.some.inj hchecks
      simp only [fields_cons] at hfields
      obtain ⟨hop, hleft, hright, hat, -⟩ := hfields
      obtain ⟨op, hop, -⟩ := vouches_operator.field ho hop
      obtain ⟨left, hleft, hl⟩ := ih.field ho hleft
      obtain ⟨right, hright, hr⟩ := ih.field ho hright
      obtain ⟨at', hat, ha⟩ := vouches_site.field ho hat
      exact ⟨.binary op left right at', by simp [expr?, hkind, ← e, hop, hleft, hright, hat],
        .binary hl hr ha⟩
    split at hchecks
    · next e =>
      obtain rfl := Option.some.inj hchecks
      simp only [fields_cons] at hfields
      obtain ⟨hcallee, hargs, hks, hat, -⟩ := hfields
      obtain ⟨callee, hcallee, hc⟩ := ih.field ho hcallee
      obtain ⟨args, hargs, has⟩ := hitems.field ho hargs
      obtain ⟨ks, hks, hk⟩ := hkeywords.optional_field ho hks
      obtain ⟨at', hat, ha⟩ := vouches_site.field ho hat
      exact ⟨.call callee args ks at', by simp [expr?, hkind, ← e, hcallee, hargs, hks, hat],
        .call hc has (fun l hl k h => (hk l hl k h).1) (fun l hl k h => (hk l hl k h).2) ha⟩
    · cases hchecks

theorem vouches_expression :
    Vouches expression expression? (Expr.WellFormed Number.Defined) := by
  refine ⟨fun {path j} hj h => ?_⟩
  cases j with
  | none => simp [expression, mistyped] at h
  | some j => exact (vouches_expr (j.depth + 1)).value hj h

/-- A statement without an issue is read as a well-formed one. -/
theorem vouches_stmt : Vouches stmt stmt? (Stmt.WellFormed Number.Defined) := by
  refine ⟨fun {path j} hj h => ?_⟩
  obtain ⟨o, kind, checks, rfl, hkind, hchecks, hfields⟩ := variant_eq_nil h
  have ho := hj o rfl
  simp only [Bindings.get?] at hchecks
  split at hchecks
  · next e =>
    obtain rfl := Option.some.inj hchecks
    simp only [fields_cons] at hfields
    obtain ⟨hname, hvalue, hat, -⟩ := hfields
    obtain ⟨n, hname, hn⟩ := vouches_name.field ho hname
    obtain ⟨value, hvalue, hv⟩ := vouches_expression.field ho hvalue
    obtain ⟨at', hat, ha⟩ := vouches_site.optional_field ho hat
    exact ⟨.assign n value at', by simp [stmt?, hkind, ← e, hname, hvalue, hat], hn, hv, ha⟩
  split at hchecks
  · next e =>
    obtain rfl := Option.some.inj hchecks
    simp only [fields_cons] at hfields
    obtain ⟨hvalue, hat, -⟩ := hfields
    obtain ⟨value, hvalue, hv⟩ := vouches_expression.field ho hvalue
    obtain ⟨at', hat, ha⟩ := vouches_site.optional_field ho hat
    exact ⟨.expr value at', by simp [stmt?, hkind, ← e, hvalue, hat], hv, ha⟩
  split at hchecks
  · next e =>
    obtain rfl := Option.some.inj hchecks
    simp only [fields_cons] at hfields
    obtain ⟨htarget, hvalue, hat, -⟩ := hfields
    obtain ⟨target, htarget, ht⟩ := vouches_name.optional_field ho htarget
    obtain ⟨value, hvalue, hv⟩ := vouches_expression.field ho hvalue
    obtain ⟨at', hat, ha⟩ := vouches_site.field ho hat
    exact ⟨.await target value at', by simp [stmt?, hkind, ← e, htarget, hvalue, hat], ht, hv, ha⟩
  split at hchecks
  · next e =>
    obtain rfl := Option.some.inj hchecks
    simp only [fields_cons] at hfields
    obtain ⟨hvalue, hat, -⟩ := hfields
    obtain ⟨value, hvalue, hv⟩ := vouches_expression.optional_field ho hvalue
    obtain ⟨at', hat, ha⟩ := vouches_site.optional_field ho hat
    exact ⟨.ret value at', by simp [stmt?, hkind, ← e, hvalue, hat], hv, ha⟩
  split at hchecks
  · next e =>
    obtain rfl := Option.some.inj hchecks
    simp only [fields_cons] at hfields
    obtain ⟨htest, hmessage, hat, -⟩ := hfields
    obtain ⟨test, htest, ht⟩ := vouches_expression.field ho htest
    obtain ⟨message, hmessage, hm⟩ := vouches_expression.optional_field ho hmessage
    obtain ⟨at', hat, ha⟩ := vouches_site.field ho hat
    exact ⟨.assert test message at', by simp [stmt?, hkind, ← e, htest, hmessage, hat], ht, hm, ha⟩
  · cases hchecks

theorem vouches_function : Vouches function function? (FunctionDecl.WellFormed Number.Defined) := by
  refine ⟨fun {path j} hj h => ?_⟩
  obtain ⟨o, rfl, hfields⟩ := object_eq_nil h
  have ho := hj o rfl
  simp only [fields_cons] at hfields
  obtain ⟨hname, hasync, hparams, hbody, -⟩ := hfields
  obtain ⟨n, hname, hn⟩ := vouches_name.field ho hname
  obtain ⟨isAsync, hasync, -⟩ := vouches_boolean.field ho hasync
  obtain ⟨params, hparams, hp⟩ := vouches_name.array.field ho hparams
  obtain ⟨body, hbody, hb⟩ := vouches_stmt.array.field ho hbody
  exact ⟨⟨n, isAsync, params, body⟩, by simp [function?, hname, hasync, hparams, hbody], hn, hp, hb⟩

theorem vouches_text {missing : String} : Vouches (text missing) Json.text? (fun _ => True) := by
  refine ⟨fun {path j} _ h => ?_⟩
  unfold text at h
  split at h
  · exact ⟨_, rfl, trivial⟩
  · simp at h
  · exact absurd h mistyped_ne_nil

/-- An object without an issue is decoded, and to a well-formed unit. -/
theorem decode?_of_issues {j : Json} (hj : j.Definite) (h : issues j = []) {file : String}
    (hfile : file ≠ "") :
    ∃ unit, decode? file j = some unit ∧ unit.WellFormed Number.Defined := by
  obtain ⟨o, e, hfields⟩ := object_eq_nil h
  obtain rfl := Option.some.inj e
  simp only [fields_cons] at hfields
  obtain ⟨hdeclared, hsource, hinputs, hfunctions, hmodule, -⟩ := hfields
  obtain ⟨declared, hdeclared, hd⟩ := vouches_name.optional_field hj hdeclared
  obtain ⟨source, hsource, -⟩ := vouches_text.field hj hsource
  obtain ⟨inputs, hinputs, hi⟩ := vouches_name.array.optional_field hj hinputs
  obtain ⟨functions, hfunctions, hf⟩ := vouches_function.array.optional_field hj hfunctions
  obtain ⟨module, hmodule, hm⟩ := vouches_stmt.array.field hj hmodule
  refine ⟨⟨declared.getD file, source, inputs, functions.getD [], module⟩,
    by simp [decode?, hdeclared, hsource, hinputs, hfunctions, hmodule], ?_, hi, ?_, hm⟩
  · cases declared with
    | none => exact hfile
    | some d => exact hd d rfl
  · cases functions with
    | none => simp
    | some fns => exact hf fns rfl

/-! ## Loading -/

/-- A text is loaded as a well-formed unit, or there is a diagnostic. -/
theorem load_sound (text : String) {file : String} (hfile : file ≠ "") :
    (∃ unit, load text file = .ok unit ∧ unit.WellFormed Number.Defined) ∨
      ∃ diagnostics, load text file = .error diagnostics ∧ diagnostics ≠ [] := by
  unfold load
  cases hparse : Json.parse? text with
  | none => exact .inr ⟨_, rfl, by simp⟩
  | some j =>
    by_cases hissues : issues j = []
    · obtain ⟨unit, hunit, hwf⟩ := decode?_of_issues (Json.definite_of_parse? hparse) hissues hfile
      exact .inl ⟨unit, by simp [hissues, hunit], hwf⟩
    · refine .inr ⟨(issues j).map diagnostic, ?_, by simpa using hissues⟩
      dsimp only
      split
      · next h _ => exact absurd h hissues
      · rfl

/-- What is written for a well-formed unit is loaded as the unit, and what is loaded from any text
is a well-formed unit; a text that is not loaded has a diagnostic. -/
theorem load_faithful :
    (∀ (unit : CompiledUnit) (file : String), unit.WellFormed (·.isFinite = true) →
      load unit.json.compact file = .ok unit ∧
        load (Json.object unit.namelessMembers).compact file = .ok { unit with file }) ∧
    ∀ text file : String, file ≠ "" →
      (∃ unit, load text file = .ok unit ∧ unit.WellFormed Number.Defined) ∨
        ∃ diagnostics, load text file = .error diagnostics ∧ diagnostics ≠ [] :=
  ⟨fun unit file h =>
    ⟨load_members h file (some unit.file) (by simpa using h.file),
      load_members h file none (by simp)⟩,
    fun text _ hfile => load_sound text hfile⟩

/-- `x = await f(y=[None, 2.0])` after a definition of `f`. -/
def awaiting : CompiledUnit where
  file := "a.py"
  source := "async def f(y):\n  return y\nx = await f(y=[None, 2.0])"
  inputs := none
  functions := [⟨"f", true, ["y"], [.ret (some (.name "y" none)) none]⟩]
  module :=
    let site : Site := ⟨.ofNat 3, .ofNat 10, .ofNat 26⟩
    [.await (some "x")
      (.call (.name "f" (some site)) []
        (some [("y", .list [.const .none none, .const (.number (.ofNat 2)) (some true)])]) site)
      site]

theorem wellFormed_awaiting : awaiting.WellFormed (·.isFinite = true) := by
  have hsite : Site.WellFormed ⟨.ofNat 3, .ofNat 10, .ofNat 26⟩ :=
    ⟨⟨3, by decide +kernel, by decide⟩, ⟨10, by decide +kernel, by decide⟩,
      ⟨26, by decide +kernel, by decide⟩⟩
  have hvalue : Expr.WellFormed (·.isFinite = true)
      (.list [.const .none none, .const (.number (.ofNat 2)) (some true)]) := by
    refine .list fun e he => ?_
    simp only [List.mem_cons, List.not_mem_nil, or_false] at he
    rcases he with rfl | rfl
    · exact .const trivial
    · exact .const (show (Number.ofNat 2).isFinite = true by decide +kernel)
  refine ⟨by decide, by simp [awaiting], ?_, ?_⟩
  · intro fn hfn
    obtain rfl := List.mem_singleton.mp hfn
    exact ⟨by decide, by simp, by simp [Stmt.WellFormed, Expr.WellFormed.name]⟩
  · intro s hs
    obtain rfl := List.mem_singleton.mp hs
    refine ⟨by simp, .call (.name (by decide) (by simpa using hsite)) (by simp) (by simp) ?_ hsite,
      hsite⟩
    simpa using hvalue

theorem load_awaiting :
    awaiting.WellFormed (·.isFinite = true) ∧ load awaiting.json.compact "b.py" = .ok awaiting ∧
      load (Json.object awaiting.namelessMembers).compact "b.py" =
        .ok { awaiting with file := "b.py" } :=
  ⟨wellFormed_awaiting, load_faithful.1 awaiting "b.py" wellFormed_awaiting⟩

end UnitFile

end Coroutines
