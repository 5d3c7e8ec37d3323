import Coroutines.Proofs.Format.Reading
import Coroutines.UnitFile.Load

/-!
# Units and their JSON

What a unit file must say about names and sites (`CompiledUnit.WellFormed`), and that the object of
a well-formed unit is decoded to the unit without an issue.
-/

namespace Coroutines

/-! ## Well-formed units -/

/-- A whole number that is not below a bound. -/
def Number.AtLeast (least : Nat) (n : Number) : Prop := ∃ k : Int, n.toInt? = some k ∧ least ≤ k

/-- Lines count from one, columns from zero. -/
structure Site.WellFormed (s : Site) : Prop where
  line : s.line.AtLeast 1
  column : s.column.AtLeast 0
  endColumn : s.endColumn.AtLeast 0

/-- A number that is a constant is among those admitted. -/
def Literal.WellFormed (admitted : Number → Prop) : Literal → Prop
  | .number n => admitted n
  | _ => True

/-- Names in an expression are not empty and its sites lie in a text. -/
inductive Expr.WellFormed (admitted : Number → Prop) : Expr → Prop
  | const {value : Literal} {float : Option Bool} (value_wf : value.WellFormed admitted) :
      WellFormed admitted (.const value float)
  | name {n : String} {site : Option Site} (nonempty : n ≠ "") (site_wf : ∀ s ∈ site, s.WellFormed) :
      WellFormed admitted (.name n site)
  | list {elements : List Expr} (elements_wf : ∀ e ∈ elements, WellFormed admitted e) :
      WellFormed admitted (.list elements)
  | tuple {elements : List Expr} (elements_wf : ∀ e ∈ elements, WellFormed admitted e) :
      WellFormed admitted (.tuple elements)
  | binary {op : BinaryOp} {left right : Expr} {site : Site} (left_wf : WellFormed admitted left)
      (right_wf : WellFormed admitted right) (site_wf : site.WellFormed) :
      WellFormed admitted (.binary op left right site)
  | call {callee : Expr} {args : List Expr} {keywords : Option (List (String × Expr))} {site : Site}
      (callee_wf : WellFormed admitted callee) (args_wf : ∀ e ∈ args, WellFormed admitted e)
      (keywords_nonempty : ∀ ks ∈ keywords, ∀ k ∈ ks, k.1 ≠ "")
      (keywords_wf : ∀ ks ∈ keywords, ∀ k ∈ ks, WellFormed admitted k.2)
      (site_wf : site.WellFormed) : WellFormed admitted (.call callee args keywords site)

def Stmt.WellFormed (admitted : Number → Prop) : Stmt → Prop
  | .assign name value site =>
    name ≠ "" ∧ value.WellFormed admitted ∧ ∀ s ∈ site, s.WellFormed
  | .expr value site => value.WellFormed admitted ∧ ∀ s ∈ site, s.WellFormed
  | .await target value site =>
    (∀ name ∈ target, name ≠ "") ∧ value.WellFormed admitted ∧ site.WellFormed
  | .ret value site => (∀ e ∈ value, e.WellFormed admitted) ∧ ∀ s ∈ site, s.WellFormed
  | .assert test message site =>
    test.WellFormed admitted ∧ (∀ e ∈ message, e.WellFormed admitted) ∧ site.WellFormed

structure FunctionDecl.WellFormed (admitted : Number → Prop) (fn : FunctionDecl) : Prop where
  name : fn.name ≠ ""
  params : ∀ p ∈ fn.params, p ≠ ""
  body : ∀ s ∈ fn.body, s.WellFormed admitted

/-- Names in a unit are not empty, its sites lie in a text and its constants are admitted. -/
structure CompiledUnit.WellFormed (admitted : Number → Prop) (unit : CompiledUnit) : Prop where
  file : unit.file ≠ ""
  inputs : ∀ names ∈ unit.inputs, ∀ name ∈ names, name ≠ ""
  functions : ∀ fn ∈ unit.functions, fn.WellFormed admitted
  module : ∀ s ∈ unit.module, s.WellFormed admitted

namespace Number

theorem atLeast_iff {least : Nat} (hl : least ≤ 1) {n : Number} :
    n.AtLeast least ↔ n.isInteger = true ∧ n.lt (.ofNat least) = false := by
  have h : Representable ((least : Int) * one) :=
    representable_mul_one (Nat.le_trans hl (Nat.two_pow_pos _))
  rw [show Number.ofNat least = _ from ofInt_of_representable h]
  have hone : (0 : Int) < one := Int.natCast_pos.mpr one_pos
  cases n with
  | finite u hu =>
    simp only [AtLeast, isInteger, toInt?, lt, decide_eq_false_iff_not, Int.not_lt]
    split
    · next hw =>
      simp only [Option.some.injEq, Option.isSome_some, true_and, exists_eq_left']
      exact Int.le_ediv_iff_mul_le hone
    · simp
  | infinite s => simp [AtLeast, isInteger, toInt?]
  | nan => simp [AtLeast, isInteger, toInt?]

end Number

namespace Expr

theorem jsons_eq (es : List Expr) : jsons es = es.map json := by
  induction es with
  | nil => rfl
  | cons e es ih => rw [jsons, ih, List.map_cons]

theorem keywordJsons_eq (ks : List (String × Expr)) :
    keywordJsons ks = ks.map fun k => .object [("name", .text k.1), ("value", k.2.json)] := by
  induction ks with
  | nil => rfl
  | cons k ks ih => rw [keywordJsons, ih, List.map_cons]

end Expr

namespace Json

theorem depth_le_itemsDepth {items : List Json} {v : Json} (h : v ∈ items) :
    v.depth ≤ itemsDepth items := by
  induction items with
  | nil => cases h
  | cons w items ih =>
    rw [itemsDepth]
    rcases List.mem_cons.mp h with rfl | h
    · exact Nat.le_max_left _ _
    · exact Nat.le_trans (ih h) (Nat.le_max_right _ _)

theorem depth_lt_array {items : List Json} {v : Json} (h : v ∈ items) :
    v.depth < (Json.array items).depth := by
  rw [depth]; exact Nat.lt_succ_of_le (depth_le_itemsDepth h)

theorem depth_le_membersDepth {members : List (String × Json)} {m : String × Json}
    (h : m ∈ members) : m.2.depth ≤ membersDepth members := by
  induction members with
  | nil => cases h
  | cons m' members ih =>
    rw [membersDepth]
    rcases List.mem_cons.mp h with rfl | h
    · exact Nat.le_max_left _ _
    · exact Nat.le_trans (ih h) (Nat.le_max_right _ _)

theorem mem_of_get? {members : List (String × Json)} {key : String} {v : Json}
    (h : Bindings.get? members key = some v) : (key, v) ∈ members := by
  induction members with
  | nil => cases h
  | cons m members ih =>
    rw [Bindings.get?] at h
    split at h
    · next e => obtain rfl := Option.some.inj h; exact e ▸ List.mem_cons_self
    · exact List.mem_cons_of_mem _ (ih h)

/-- The value of a field is nested less deeply than the object. -/
theorem depth_lt_of_get? {j : Json} (key : String) {v : Json} (h : j.get? key = some v) :
    v.depth < j.depth := by
  cases j with
  | object members =>
    rw [depth]
    exact Nat.lt_succ_of_le (depth_le_membersDepth (m := (key, v)) (mem_of_get? h))
  | _ => cases h

end Json

namespace UnitFile

/-! ## Values that are accepted -/

/-- A value is read without an issue. -/
structure Accepts {α : Type} (check : Check) (read : Json → Option α) (j : Json) (v : α) : Prop where
  reads : read j = some v
  clean : ∀ path, check path (some j) = []

theorem Accepts.array {α : Type} {check : Check} {read : Json → Option α} {write : α → Json}
    {l : List α} (h : ∀ v ∈ l, Accepts check read (write v) v) :
    Accepts (arrayOf check) (Json.list? read) (.array (l.map write)) l := by
  refine ⟨?_, fun path => ?_⟩
  · simp only [Json.list?, Json.items?, Option.bind_some]
    induction l with
    | nil => rfl
    | cons v l ih =>
      rw [List.map_cons, List.mapM_cons, (h v (by simp)).reads,
        ih fun w hw => h w (List.mem_cons_of_mem _ hw)]
      rfl
  · simp only [arrayOf, List.flatMap_eq_nil_iff]
    rintro ⟨j, i⟩ hj
    obtain ⟨v, hv, rfl⟩ := List.mem_map.mp (List.fst_mem_of_mem_zipIdx hj)
    exact (h v hv).clean _

theorem accepts_name {s : String} (h : s ≠ "") : Accepts name Json.text? (.text s) s :=
  ⟨rfl, fun path => by simp [name, String.isEmpty_iff, h]⟩

theorem accepts_literal (value : Literal) : Accepts literal literal? value.json value := by
  cases value <;> exact ⟨rfl, fun _ => rfl⟩

theorem accepts_operator (op : BinaryOp) : Accepts operator operator? (.text op.symbol) op :=
  ⟨op.ofSymbol?_symbol, fun path => by simp [operator, op.ofSymbol?_symbol]⟩

theorem accepts_whole {least : Nat} (hl : least ≤ 1) {n : Number} (h : n.AtLeast least) :
    Accepts (whole least) Json.number? (.number n) n := by
  obtain ⟨hi, hlt⟩ := (Number.atLeast_iff hl).mp h
  exact ⟨rfl, fun path => by simp [whole, hi, hlt]⟩

section

-- looking up the fields of an object that is written out
attribute [local simp] Json.field? Json.optional? Json.get? Bindings.get? Json.member? Json.text?
  Json.bool? variant fields optional boolean

theorem accepts_site {s : Site} (h : s.WellFormed) : Accepts site site? s.json s := by
  have hline := accepts_whole (by decide) h.line
  have hcolumn := accepts_whole (by decide) h.column
  have hend := accepts_whole (by decide) h.endColumn
  refine ⟨?_, fun path => ?_⟩
  · simp [site?, Site.json, hline.reads, hcolumn.reads, hend.reads]
  · simp [site, object, Site.json, hline.clean, hcolumn.clean, hend.clean]

theorem accepts_keyword {levels : Nat} {k : String × Expr} (hk : k.1 ≠ "")
    (h : Accepts (expr levels) (expr? levels) k.2.json k.2) :
    Accepts (object [("name", name), ("value", expr levels)]) (keyword? (expr? levels))
      (.object [("name", .text k.1), ("value", k.2.json)]) k := by
  have hname := accepts_name hk
  refine ⟨?_, fun path => ?_⟩
  · simp [keyword?, h.reads]
  · simp [object, hname.clean, h.clean]

theorem depth_field {j v : Json} {n : Nat} (hl : j.depth < n + 1) (key : String)
    (h : j.get? key = some v) : v.depth < n :=
  Nat.lt_of_lt_of_le (Json.depth_lt_of_get? key h) (Nat.le_of_lt_succ hl)

theorem depth_element {es : List Expr} {n : Nat} (h : (Json.array (Expr.jsons es)).depth < n)
    {e : Expr} (he : e ∈ es) : e.json.depth < n :=
  Nat.lt_trans (Json.depth_lt_array (by rw [Expr.jsons_eq]; exact List.mem_map_of_mem he)) h

theorem accepts_elements {es : List Expr} {n : Nat} (h : (Json.array (Expr.jsons es)).depth < n)
    (ih : ∀ e ∈ es, ∀ {levels : Nat}, e.json.depth < levels →
      Accepts (expr levels) (expr? levels) e.json e) :
    Accepts (arrayOf (expr n)) (Json.list? (expr? n)) (.array (Expr.jsons es)) es := by
  rw [Expr.jsons_eq]
  exact .array fun e he => ih e he (depth_element h he)

theorem accepts_keywords {ks : List (String × Expr)} {n : Nat}
    (h : (Json.array (Expr.keywordJsons ks)).depth < n) (hne : ∀ k ∈ ks, k.1 ≠ "")
    (ih : ∀ k ∈ ks, ∀ {levels : Nat}, k.2.json.depth < levels →
      Accepts (expr levels) (expr? levels) k.2.json k.2) :
    Accepts (arrayOf (object [("name", name), ("value", expr n)])) (Json.list? (keyword? (expr? n)))
      (.array (Expr.keywordJsons ks)) ks := by
  rw [Expr.keywordJsons_eq] at h ⊢
  refine .array fun k hk => accepts_keyword (hne k hk) (ih k hk ?_)
  have hobject : k.2.json.depth < (Json.object [("name", .text k.1), ("value", k.2.json)]).depth :=
    Json.depth_lt_of_get? "value" (by simp)
  have harray := Json.depth_lt_array (List.mem_map_of_mem
    (f := fun k : String × Expr => Json.object [("name", .text k.1), ("value", k.2.json)]) hk)
  exact Nat.lt_trans hobject (Nat.lt_trans harray h)

/-- A well-formed expression is read from its object. -/
theorem accepts_expr {e : Expr} {admitted : Number → Prop} (h : e.WellFormed admitted) {levels : Nat}
    (hl : e.json.depth < levels) : Accepts (expr levels) (expr? levels) e.json e := by
  induction h generalizing levels with
  | @const value float =>
    obtain ⟨n, rfl⟩ : ∃ n, levels = n + 1 := ⟨levels - 1, by omega⟩
    have hvalue := accepts_literal value
    refine ⟨?_, fun path => ?_⟩
    · cases float <;> simp [expr?, Expr.json, hvalue.reads]
    · cases float <;> simp [expr, Expr.json, hvalue.clean]
  | @name s site hs hsite =>
    obtain ⟨n, rfl⟩ : ∃ n, levels = n + 1 := ⟨levels - 1, by omega⟩
    have hname := accepts_name hs
    cases site with
    | none => exact ⟨by simp [expr?, Expr.json], fun path => by simp [expr, Expr.json, hname.clean]⟩
    | some s =>
      have hat := accepts_site (hsite s rfl)
      exact ⟨by simp [expr?, Expr.json, hat.reads],
        fun path => by simp [expr, Expr.json, hname.clean, hat.clean]⟩
  | @list es hes ih | @tuple es hes ih =>
    obtain ⟨n, rfl⟩ : ∃ n, levels = n + 1 := ⟨levels - 1, by omega⟩
    have hes := accepts_elements
      (depth_field hl "elements" (by simp [Expr.json])) ih
    exact ⟨by simp [expr?, Expr.json, hes.reads],
      fun path => by simp [expr, Expr.json, hes.clean]⟩
  | @binary op left right site hleft hright hsite ihl ihr =>
    obtain ⟨n, rfl⟩ : ∃ n, levels = n + 1 := ⟨levels - 1, by omega⟩
    have hop := accepts_operator op
    have hleft := ihl (depth_field hl "left" (by simp [Expr.json]))
    have hright := ihr (depth_field hl "right" (by simp [Expr.json]))
    have hat := accepts_site hsite
    exact ⟨by simp [expr?, Expr.json, hop.reads, hleft.reads, hright.reads, hat.reads],
      fun path => by simp [expr, Expr.json, hop.clean, hleft.clean, hright.clean, hat.clean]⟩
  | @call callee args keywords site hc ha hne hk hs ihc iha ihk =>
    obtain ⟨n, rfl⟩ : ∃ n, levels = n + 1 := ⟨levels - 1, by omega⟩
    have hcallee := ihc (depth_field hl "callee" (by simp [Expr.json]))
    have hargs := accepts_elements
      (depth_field hl "args" (by simp [Expr.json])) iha
    have hat := accepts_site hs
    cases keywords with
    | none =>
      exact ⟨by simp [expr?, Expr.json, hcallee.reads, hargs.reads, hat.reads],
        fun path => by simp [expr, Expr.json, hcallee.clean, hargs.clean, hat.clean]⟩
    | some ks =>
      have hks := accepts_keywords
        (depth_field hl "keywords" (by simp [Expr.json]))
        (hne ks rfl) (ihk ks rfl)
      exact ⟨by simp [expr?, Expr.json, hcallee.reads, hargs.reads, hat.reads, hks.reads],
        fun path => by simp [expr, Expr.json, hcallee.clean, hargs.clean, hat.clean, hks.clean]⟩

/-- An expression of any depth. -/
theorem accepts_expression {e : Expr} {admitted : Number → Prop} (h : e.WellFormed admitted) :
    Accepts expression expression? e.json e :=
  have h := accepts_expr h (Nat.lt_succ_self _)
  ⟨h.reads, h.clean⟩

theorem optional_site {site : Option Site} (h : ∀ s ∈ site, s.WellFormed) :
    (∀ s ∈ site, site? s.json = some s) ∧ ∀ s ∈ site, ∀ path, UnitFile.site path (some s.json) = [] :=
  ⟨fun s hs => (accepts_site (h s hs)).reads, fun s hs => (accepts_site (h s hs)).clean⟩

theorem optional_expression {e : Option Expr} {admitted : Number → Prop}
    (h : ∀ v ∈ e, v.WellFormed admitted) :
    (∀ v ∈ e, expression? v.json = some v) ∧ ∀ v ∈ e, ∀ path, expression path (some v.json) = [] :=
  ⟨fun v hv => (accepts_expression (h v hv)).reads, fun v hv => (accepts_expression (h v hv)).clean⟩

/-- A well-formed statement is read from its object. -/
theorem accepts_stmt {s : Stmt} {admitted : Number → Prop} (h : s.WellFormed admitted) :
    Accepts stmt stmt? s.json s := by
  cases s with
  | assign n value site =>
    obtain ⟨hn, hv, hs⟩ := h
    have hname := accepts_name hn
    have hvalue := accepts_expression hv
    obtain ⟨hreads, hclean⟩ := optional_site hs
    constructor
    · cases site <;> simp [stmt?, Stmt.json, hvalue.reads, hreads]
    · cases site <;> simp [stmt, Stmt.json, hname.clean, hvalue.clean, hclean]
  | expr value site =>
    obtain ⟨hv, hs⟩ := h
    have hvalue := accepts_expression hv
    obtain ⟨hreads, hclean⟩ := optional_site hs
    constructor
    · cases site <;> simp [stmt?, Stmt.json, hvalue.reads, hreads]
    · cases site <;> simp [stmt, Stmt.json, hvalue.clean, hclean]
  | await target value site =>
    obtain ⟨ht, hv, hs⟩ := h
    have hvalue := accepts_expression hv
    have hat := accepts_site hs
    have hclean : ∀ n ∈ target, ∀ path, name path (some (.text n)) = [] := fun n hn =>
      (accepts_name (ht n hn)).clean
    constructor
    · cases target <;> simp [stmt?, Stmt.json, hvalue.reads, hat.reads]
    · cases target <;> simp [stmt, Stmt.json, hvalue.clean, hat.clean, hclean]
  | ret value site =>
    obtain ⟨hv, hs⟩ := h
    obtain ⟨hreads, hclean⟩ := optional_site hs
    obtain ⟨hreads', hclean'⟩ := optional_expression hv
    constructor
    · cases value <;> cases site <;> simp [stmt?, Stmt.json, hreads, hreads']
    · cases value <;> cases site <;> simp [stmt, Stmt.json, hclean, hclean']
  | assert test message site =>
    obtain ⟨ht, hm, hs⟩ := h
    have htest := accepts_expression ht
    have hat := accepts_site hs
    obtain ⟨hreads, hclean⟩ := optional_expression hm
    constructor
    · cases message <;> simp [stmt?, Stmt.json, htest.reads, hat.reads, hreads]
    · cases message <;> simp [stmt, Stmt.json, htest.clean, hat.clean, hclean]

theorem accepts_names {l : List String} (h : ∀ n ∈ l, n ≠ "") :
    Accepts (arrayOf name) (Json.list? Json.text?) (.array (l.map .text)) l :=
  .array fun n hn => accepts_name (h n hn)

theorem accepts_stmts {l : List Stmt} {admitted : Number → Prop}
    (h : ∀ s ∈ l, s.WellFormed admitted) :
    Accepts (arrayOf stmt) (Json.list? stmt?) (.array (l.map Stmt.json)) l :=
  .array fun s hs => accepts_stmt (h s hs)

theorem accepts_function {fn : FunctionDecl} {admitted : Number → Prop}
    (h : fn.WellFormed admitted) : Accepts function function? fn.json fn := by
  have hname := accepts_name h.name
  have hparams := accepts_names h.params
  have hbody := accepts_stmts h.body
  constructor
  · simp [function?, FunctionDecl.json, hparams.reads, hbody.reads]
  · simp [function, object, FunctionDecl.json, hname.clean, hparams.clean, hbody.clean]

theorem accepts_functions {l : List FunctionDecl} {admitted : Number → Prop}
    (h : ∀ fn ∈ l, fn.WellFormed admitted) :
    Accepts (arrayOf function) (Json.list? function?) (.array (l.map FunctionDecl.json)) l :=
  .array fun fn hfn => accepts_function (h fn hfn)

/-- The object of a well-formed unit, with or without a file name, has no issue and is decoded to
the unit. -/
theorem decode?_members {unit : CompiledUnit} {admitted : Number → Prop}
    (h : unit.WellFormed admitted) (file : String) {declared : Option String}
    (hd : ∀ d ∈ declared, d ≠ "") :
    let j := Json.object (Json.member? "file" (declared.map .text) ++ unit.namelessMembers)
    decode? file j = some { unit with file := declared.getD file } ∧ issues j = [] := by
  have hname : ∀ d ∈ declared, ∀ path, name path (some (.text d)) = [] := fun d h =>
    (accepts_name (hd d h)).clean
  have hfunctions := accepts_functions h.functions
  have hmodule := accepts_stmts h.module
  have hinputs : ∀ names ∈ unit.inputs, Accepts (arrayOf name) (Json.list? Json.text?)
      (CompiledUnit.inputsJson names) names := fun names hn => accepts_names (h.inputs names hn)
  have hreads := fun names hn => (hinputs names hn).reads
  have hclean := fun names hn => (hinputs names hn).clean
  obtain ⟨_, source, inputs, functions, module⟩ := unit
  constructor
  · cases declared <;> cases inputs <;>
      simp [decode?, CompiledUnit.namelessMembers, hfunctions.reads, hmodule.reads, hreads]
  · cases declared <;> cases inputs <;>
      simp [issues, UnitFile.unit, object, CompiledUnit.namelessMembers, text, hname,
        hfunctions.clean, hmodule.clean, hclean]

end

end UnitFile

end Coroutines
