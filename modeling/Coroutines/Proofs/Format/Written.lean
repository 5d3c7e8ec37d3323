import Coroutines.Proofs.Bindings
import Coroutines.Proofs.Format.Units

/-!
# Writing units

The object of a unit with finite constants is stable, so the text of a well-formed unit is loaded as
the unit.
-/

namespace Coroutines

/-! ## Objects with fixed fields -/

namespace Json

/-- The fields of units, statements and expressions. -/
def fieldNames : List String :=
  ["file", "source", "inputs", "functions", "module", "name", "async", "params", "body", "kind",
    "value", "float", "elements", "op", "left", "right", "callee", "args", "keywords", "at",
    "target", "test", "msg", "line", "col", "endCol"]

theorem index?_fieldNames : ∀ name ∈ fieldNames, Bindings.index? name = none := by decide

/-- An object with some of these fields, each once. -/
theorem Stable.fields {members : List (String × Json)} (hn : (members.map Prod.fst).Nodup)
    (hk : ∀ m ∈ members, m.1 ∈ fieldNames) (hs : ∀ m ∈ members, m.2.Stable) :
    (Json.object members).Stable := by
  refine .object ?_ hs
  rw [ofMembers, Bindings.ofList_of_nodup hn,
    Bindings.indexFirst_of_names fun m hm => index?_fieldNames _ (hk m hm)]

theorem Stable.items {α : Type} {l : List α} {write : α → Json} (h : ∀ v ∈ l, (write v).Stable) :
    (Json.array (l.map write)).Stable :=
  .array fun j hj => by
    obtain ⟨v, hv, rfl⟩ := List.mem_map.mp hj
    exact h v hv

end Json

open Json

theorem Number.AtLeast.isFinite {least : Nat} {n : Number} (h : n.AtLeast least) :
    n.isFinite = true := by
  obtain ⟨k, hk, -⟩ := h
  obtain ⟨hr, rfl⟩ := eq_finite_of_toInt? hk
  rfl

theorem Site.WellFormed.stable {s : Site} (h : s.WellFormed) : s.json.Stable :=
  .fields (by simp) (by simp [fieldNames]) <| by
    simp [Stable.number h.line.isFinite, Stable.number h.column.isFinite,
      Stable.number h.endColumn.isFinite]

theorem Literal.WellFormed.stable {value : Literal} (h : value.WellFormed (·.isFinite = true)) :
    value.json.Stable := by
  cases value with
  | none => exact .null
  | bool b => exact .bool b
  | number n => exact .number h
  | text s => exact .text s

/-- The object of an expression with finite constants is stable. -/
theorem Expr.WellFormed.stable {e : Expr} (h : e.WellFormed (·.isFinite = true)) :
    e.json.Stable := by
  induction h with
  | @const value float hv =>
    have hvalue := hv.stable
    cases float <;>
      exact .fields (by simp [member?]) (by simp [member?, fieldNames])
        (by simp [member?, Stable.text, Stable.bool, hvalue])
  | @name s site _ hs =>
    have hat : ∀ s ∈ site, s.json.Stable := fun s h => (hs s h).stable
    cases site <;>
      exact .fields (by simp [member?]) (by simp [member?, fieldNames])
        (by simp [member?, Stable.text, hat])
  | @list es _ ih | @tuple es _ ih =>
    have hes := Stable.items ih
    exact .fields (by simp) (by simp [fieldNames]) (by simp [Stable.text, jsons_eq, hes])
  | @binary op left right site _ _ hs ihl ihr =>
    have hat := hs.stable
    exact .fields (by simp) (by simp [fieldNames]) (by simp [Stable.text, ihl, ihr, hat])
  | @call callee args keywords site _ _ _ _ hs ihc iha ihk =>
    have hat := hs.stable
    have hargs := Stable.items iha
    cases keywords with
    | none =>
      exact .fields (by simp) (by simp [fieldNames])
        (by simp [Stable.text, jsons_eq, ihc, hargs, hat])
    | some ks =>
      have hks : (Json.array (keywordJsons ks)).Stable := by
        rw [keywordJsons_eq]
        exact Stable.items fun k hk => .fields (by simp) (by simp [fieldNames])
          (by simp [Stable.text, ihk ks rfl k hk])
      exact .fields (by simp) (by simp [fieldNames])
        (by simp [Stable.text, jsons_eq, ihc, hargs, hks, hat])

theorem Stmt.WellFormed.stable {s : Stmt} (h : s.WellFormed (·.isFinite = true)) :
    s.json.Stable := by
  cases s with
  | assign n value site =>
    obtain ⟨-, hv, hs⟩ := h
    have hat : ∀ s ∈ site, s.json.Stable := fun s h => (hs s h).stable
    cases site <;>
      exact .fields (by simp [member?]) (by simp [member?, fieldNames])
        (by simp [member?, Stable.text, hv.stable, hat])
  | expr value site =>
    obtain ⟨hv, hs⟩ := h
    have hat : ∀ s ∈ site, s.json.Stable := fun s h => (hs s h).stable
    cases site <;>
      exact .fields (by simp [member?]) (by simp [member?, fieldNames])
        (by simp [member?, Stable.text, hv.stable, hat])
  | await target value site =>
    obtain ⟨-, hv, hs⟩ := h
    cases target <;>
      exact .fields (by simp [member?]) (by simp [member?, fieldNames])
        (by simp [member?, Stable.text, hv.stable, hs.stable])
  | ret value site =>
    obtain ⟨hv, hs⟩ := h
    have hat : ∀ s ∈ site, s.json.Stable := fun s h => (hs s h).stable
    have hvalue : ∀ e ∈ value, e.json.Stable := fun e h => (hv e h).stable
    cases value <;> cases site <;>
      exact .fields (by simp [member?]) (by simp [member?, fieldNames])
        (by simp [member?, Stable.text, hvalue, hat])
  | assert test message site =>
    obtain ⟨ht, hm, hs⟩ := h
    have hmessage : ∀ e ∈ message, e.json.Stable := fun e h => (hm e h).stable
    cases message <;>
      exact .fields (by simp [member?]) (by simp [member?, fieldNames])
        (by simp [member?, Stable.text, ht.stable, hmessage, hs.stable])

theorem stable_names (l : List String) : (Json.array (l.map .text)).Stable :=
  .items fun s _ => .text s

theorem FunctionDecl.WellFormed.stable {fn : FunctionDecl}
    (h : fn.WellFormed (·.isFinite = true)) : fn.json.Stable :=
  have hbody := Stable.items fun s hs => (h.body s hs).stable
  .fields (by simp) (by simp [fieldNames])
    (by simp [Stable.text, Stable.bool, stable_names, hbody])

/-- The object of a unit with finite constants is stable, with or without its file name. -/
theorem CompiledUnit.WellFormed.stable {unit : CompiledUnit}
    (h : unit.WellFormed (·.isFinite = true)) (declared : Option String) :
    (Json.object (member? "file" (declared.map .text) ++ unit.namelessMembers)).Stable := by
  have hfunctions := Stable.items fun fn hfn => (h.functions fn hfn).stable
  have hmodule := Stable.items fun s hs => (h.module s hs).stable
  obtain ⟨_, source, inputs, functions, module⟩ := unit
  cases declared <;> cases inputs <;>
    exact .fields (by simp [member?, namelessMembers])
      (by simp [member?, namelessMembers, fieldNames])
      (by simp [member?, namelessMembers, inputsJson, Stable.text, stable_names, hfunctions,
        hmodule])

namespace UnitFile

/-- The text of a well-formed unit, with or without its file name, is loaded as the unit. -/
theorem load_members {unit : CompiledUnit} (h : unit.WellFormed (·.isFinite = true))
    (file : String) (declared : Option String) (hd : ∀ d ∈ declared, d ≠ "") :
    load (Json.object (member? "file" (declared.map .text) ++ unit.namelessMembers)).compact file =
      .ok { unit with file := declared.getD file } := by
  obtain ⟨hread, hissues⟩ := decode?_members h file hd
  unfold load
  rw [parse?_compact (h.stable declared)]
  simp only [hread, hissues]

end UnitFile

end Coroutines
