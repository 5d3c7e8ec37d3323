import Coroutines.Code
import Coroutines.Text

/-!
# Occurrences of defects

Where a unit is defective, without the walk that looks for it.  An expression is found in a larger one by its
path; what holds it are the expressions on the way (`Expr.at?`).  From this `Expr.Defective`,
`Stmt.Defective` and `CompiledUnit.Defective` say which places of a unit have a defect of which kind.
-/

namespace Coroutines

/-- The defects that show without running a unit. -/
inductive DefectKind where
  | site
  | noSite
  | unbound
  | repeatedKeyword
  | repeatedParam
  | repeatedFunction
  | repeatedInput
  | awaitOutside
  | returnOutside
  deriving DecidableEq

namespace DefectKind

def code : DefectKind → String
  | .site => "E_SITE"
  | .noSite => "E_NO_SITE"
  | .unbound => "E_UNBOUND"
  | .repeatedKeyword => "E_DUP_KEYWORD"
  | .repeatedParam => "E_DUP_PARAM"
  | .repeatedFunction => "E_DUP_FN"
  | .repeatedInput => "E_DUP_INPUT"
  | .awaitOutside => "E_AWAIT_OUTSIDE"
  | .returnOutside => "E_RETURN_OUTSIDE"

theorem code_inj {a b : DefectKind} : a.code = b.code ↔ a = b := by
  cases a <;> cases b <;> decide

end DefectKind

/-- An entry of a list repeats an earlier one. -/
def Repeats (names : List String) (i : Nat) : Prop :=
  ∃ n j, names[i]? = some n ∧ j < i ∧ names[j]? = some n

/-! ### Parts of expressions -/

namespace Expr

/-- The expressions that an expression is made of, from left to right. -/
def parts : Expr → List Expr
  | .const _ _ | .name _ _ => []
  | .list elements | .tuple elements => elements
  | .binary _ left right _ => [left, right]
  | .call callee args keywords _ => callee :: args ++ (keywords.getD []).map Prod.snd

mutual

/-- Induction on the parts of expressions. -/
@[elab_as_elim]
theorem partsInduction {motive : Expr → Prop} (h : ∀ e : Expr, (∀ a ∈ e.parts, motive a) → motive e) :
    ∀ e, motive e
  | .const _ _ | .name _ _ => h _ nofun
  | .list elements => h _ (partsInductionAll h elements)
  | .tuple elements => h _ (partsInductionAll h elements)
  | .binary _ left right _ => h _ <| List.forall_mem_cons.mpr
      ⟨partsInduction h left, List.forall_mem_singleton.mpr (partsInduction h right)⟩
  | .call callee args none _ => h _ <| List.forall_mem_cons.mpr
      ⟨partsInduction h callee, List.forall_mem_append.mpr ⟨partsInductionAll h args, nofun⟩⟩
  | .call callee args (some ks) _ => h _ <| List.forall_mem_cons.mpr
      ⟨partsInduction h callee, List.forall_mem_append.mpr
        ⟨partsInductionAll h args, List.forall_mem_map.mpr (partsInductionKeywords h ks)⟩⟩

theorem partsInductionAll {motive : Expr → Prop} (h : ∀ e : Expr, (∀ a ∈ e.parts, motive a) → motive e) :
    ∀ es : List Expr, ∀ a ∈ es, motive a
  | [] => nofun
  | e :: rest => List.forall_mem_cons.mpr ⟨partsInduction h e, partsInductionAll h rest⟩

theorem partsInductionKeywords {motive : Expr → Prop}
    (h : ∀ e : Expr, (∀ a ∈ e.parts, motive a) → motive e) :
    ∀ ks : List (String × Expr), ∀ k ∈ ks, motive k.2
  | [] => nofun
  | (_, e) :: rest => List.forall_mem_cons.mpr ⟨partsInduction h e, partsInductionKeywords h rest⟩

end

/-- The site that an expression has itself. -/
def site? : Expr → Option Site
  | .name _ own => own
  | .binary _ _ _ here | .call _ _ _ here => some here
  | .const _ _ | .list _ | .tuple _ => none

/-- The names of the keyword arguments of a call. -/
def keywordNames : Expr → List String
  | .call _ _ keywords _ => (keywords.getD []).map Prod.fst
  | _ => []

/-- The expression at the end of a path, which gives the number of a part at each step. -/
def at? (e : Expr) : List Nat → Option Expr
  | [] => some e
  | i :: path => e.parts[i]?.bind (·.at? path)

/-- A site occurs in an expression. -/
def HasSite (e : Expr) (site : Site) : Prop := ∃ path a, e.at? path = some a ∧ a.site? = some site

end Expr

namespace Stmt

/-- The expressions of a statement. -/
def exprs : Stmt → List Expr
  | .assign _ value _ | .expr value _ | .await _ value _ => [value]
  | .ret value _ => value.toList
  | .assert test message _ => test :: message.toList

def site? : Stmt → Option Site
  | .assign _ _ site | .expr _ site | .ret _ site => site
  | .await _ _ site | .assert _ _ site => some site

/-- A statement binds a name, by an assignment or as the target of an await. -/
inductive Assigns (name : String) : Stmt → Prop
  | assign (value : Expr) (site : Option Site) : Assigns name (.assign name value site)
  | await (value : Expr) (site : Site) : Assigns name (.await (some name) value site)

/-- A site occurs in a statement. -/
def HasSite (s : Stmt) (site : Site) : Prop := s.site? = some site ∨ ∃ e ∈ s.exprs, e.HasSite site

end Stmt

/-! ### Places -/

/-- A place in an expression: the end of a path, or a keyword of the call that stands there. -/
structure ExprPlace where
  path : List Nat
  keyword : Option Nat

/-- A spot of a part, as one of the whole. -/
def ExprPlace.inPart (i : Nat) (spot : ExprPlace) : ExprPlace := ⟨i :: spot.path, spot.keyword⟩

theorem ExprPlace.inPart_inj {i j : Nat} {spot spot' : ExprPlace} :
    spot.inPart i = spot'.inPart j ↔ i = j ∧ spot = spot' := by
  cases spot
  cases spot'
  simp [inPart, and_assoc]

/-- A place in a statement: the statement itself, or a spot in one of its expressions. -/
inductive StmtPlace where
  | itself
  | within (expr : Nat) (spot : ExprPlace)

/-- A place in a unit; statements belong to a function, or to the module. -/
inductive UnitPlace where
  | input (i : Nat)
  | function (f : Nat)
  | param (f i : Nat)
  | functionStmt (f i : Nat) (place : StmtPlace)
  | moduleStmt (i : Nat) (place : StmtPlace)

/-! ### Defective places -/

/-- The defects in an expression, by what it means for a site to fit the source and for a name to be known.
`enclosing` is the site of the statement that the expression belongs to. -/
inductive Expr.Defective (Fits : Site → Prop) (Known : String → Prop) (enclosing : Option Site) (e : Expr) :
    DefectKind → ExprPlace → Prop
  | site {path : List Nat} {a : Expr} {site : Site} (h : e.at? path = some a) (hsite : a.site? = some site)
      (hfits : ¬ Fits site) : Defective Fits Known enclosing e .site ⟨path, none⟩
  /-- Nothing around the name has a site. -/
  | noSite {path : List Nat} {n : String} (h : e.at? path = some (.name n none)) (henclosing : enclosing = none)
      (hholders : ∀ before after a, path = before ++ after → after ≠ [] → e.at? before = some a →
        a.site? = none) : Defective Fits Known enclosing e .noSite ⟨path, none⟩
  | unbound {path : List Nat} {n : String} {own : Option Site} (h : e.at? path = some (.name n own))
      (hknown : ¬ Known n) : Defective Fits Known enclosing e .unbound ⟨path, none⟩
  | repeatedKeyword {path : List Nat} {a : Expr} {i : Nat} (h : e.at? path = some a)
      (hrepeats : Repeats a.keywordNames i) :
    Defective Fits Known enclosing e .repeatedKeyword ⟨path, some i⟩

/-- The defects in a statement of a function, or of the module without an owner. -/
inductive Stmt.Defective (Fits : Site → Prop) (Known : String → Prop) (owner : Option FunctionDecl)
    (s : Stmt) : DefectKind → StmtPlace → Prop
  | site {site : Site} (hsite : s.site? = some site) (hfits : ¬ Fits site) :
    Defective Fits Known owner s .site .itself
  | awaitOutside {target : Option String} {value : Expr} {site : Site} (h : s = .await target value site)
      (howner : ∀ fn, owner = some fn → fn.isAsync = false) :
    Defective Fits Known owner s .awaitOutside .itself
  | returnOutside {value : Option Expr} {site : Option Site} (h : s = .ret value site)
      (howner : owner = none) : Defective Fits Known owner s .returnOutside .itself
  | within {i : Nat} {e : Expr} {k : DefectKind} {spot : ExprPlace} (he : s.exprs[i]? = some e)
      (h : e.Defective Fits Known s.site? k spot) : Defective Fits Known owner s k (.within i spot)

/-- A site lies in a source: its line is the number of a line, on which its columns lie in order. -/
structure Site.LiesIn (source : String) (site : Site) : Prop where
  line : ∃ n text, 1 ≤ n ∧ site.line = .ofNat n ∧ (Text.lines source)[n - 1]? = some text ∧
    Number.zero.le site.column = true ∧ site.column.le (.ofNat (Text.length text)) = true
  order : site.column.le site.endColumn = true

/-- The numbers of a site are numbers. -/
structure Site.Defined (site : Site) : Prop where
  line : site.line ≠ .nan
  column : site.column ≠ .nan
  endColumn : site.endColumn ≠ .nan

namespace CompiledUnit

/-- A name is bound where the statements of a function stand, or those of the module without an owner. -/
inductive InScope (unit : CompiledUnit) (owner : Option FunctionDecl) (name : String) : Prop
  | param {fn : FunctionDecl} (howner : owner = some fn) (h : name ∈ fn.params)
  | local {fn : FunctionDecl} {s : Stmt} (howner : owner = some fn) (hs : s ∈ fn.body) (h : s.Assigns name)
  | global {s : Stmt} (hs : s ∈ unit.module) (h : s.Assigns name)
  | input {inputs : List String} (hinputs : unit.inputs = some inputs) (h : name ∈ inputs)
  | function {fn : FunctionDecl} (hfn : fn ∈ unit.functions) (h : fn.name = name)

/-- A name that is not reported; without the names of builtins every name is taken to be known. -/
def Known (unit : CompiledUnit) (builtins : Option (List String)) (owner : Option FunctionDecl)
    (name : String) : Prop :=
  ∀ names, builtins = some names → unit.InScope owner name ∨ name ∈ names

/-- The defects of a unit, by what it means for a site to fit the source. -/
inductive DefectiveBy (Fits : Site → Prop) (unit : CompiledUnit) (builtins : Option (List String)) :
    DefectKind → UnitPlace → Prop
  | repeatedInput {inputs : List String} {i : Nat} (h : unit.inputs = some inputs)
      (hrepeats : Repeats inputs i) : DefectiveBy Fits unit builtins .repeatedInput (.input i)
  | repeatedFunction {f : Nat} (hrepeats : Repeats (unit.functions.map FunctionDecl.name) f) :
    DefectiveBy Fits unit builtins .repeatedFunction (.function f)
  | repeatedParam {f i : Nat} {fn : FunctionDecl} (hfn : unit.functions[f]? = some fn)
      (hrepeats : Repeats fn.params i) : DefectiveBy Fits unit builtins .repeatedParam (.param f i)
  | inFunction {f i : Nat} {fn : FunctionDecl} {s : Stmt} {k : DefectKind} {place : StmtPlace}
      (hfn : unit.functions[f]? = some fn) (hs : fn.body[i]? = some s)
      (h : s.Defective Fits (unit.Known builtins (some fn)) (some fn) k place) :
    DefectiveBy Fits unit builtins k (.functionStmt f i place)
  | inModule {i : Nat} {s : Stmt} {k : DefectKind} {place : StmtPlace} (hs : unit.module[i]? = some s)
      (h : s.Defective Fits (unit.Known builtins none) none k place) :
    DefectiveBy Fits unit builtins k (.moduleStmt i place)

/-- **The defects of a unit**: which of its places have a defect of which kind. -/
def Defective (unit : CompiledUnit) (builtins : Option (List String)) : DefectKind → UnitPlace → Prop :=
  unit.DefectiveBy (Site.LiesIn unit.source) builtins

/-- A site occurs in a unit. -/
def HasSite (unit : CompiledUnit) (site : Site) : Prop :=
  ∃ s : Stmt, (s ∈ unit.module ∨ ∃ fn ∈ unit.functions, s ∈ fn.body) ∧ s.HasSite site

end CompiledUnit

/-! ### Defects of parts -/

namespace Expr

variable {Fits Fits' : Site → Prop} {Known : String → Prop} {enclosing : Option Site} {e : Expr} {k : DefectKind}
  {spot : ExprPlace}

/-- The defects of an expression itself. -/
theorem defective_root_iff {keyword : Option Nat} : e.Defective Fits Known enclosing k ⟨[], keyword⟩ ↔
    ((∃ s, e.site? = some s ∧ ¬ Fits s) ∧ k = .site ∧ keyword = none) ∨
    ((∃ n, e = .name n none ∧ enclosing = none) ∧ k = .noSite ∧ keyword = none) ∨
    ((∃ n own, e = .name n own ∧ ¬ Known n) ∧ k = .unbound ∧ keyword = none) ∨
    (∃ i, some i = keyword ∧ k = .repeatedKeyword ∧ Repeats e.keywordNames i) := by
  constructor
  · intro h
    cases h with
    | site h hsite hfits => cases h; exact .inl ⟨⟨_, hsite, hfits⟩, rfl, rfl⟩
    | noSite h henclosing => cases h; exact .inr (.inl ⟨⟨_, rfl, henclosing⟩, rfl, rfl⟩)
    | unbound h hknown => cases h; exact .inr (.inr (.inl ⟨⟨_, _, rfl, hknown⟩, rfl, rfl⟩))
    | repeatedKeyword h hrepeats => cases h; exact .inr (.inr (.inr ⟨_, rfl, rfl, hrepeats⟩))
  · rintro (⟨⟨s, hsite, hfits⟩, rfl, rfl⟩ | ⟨⟨n, rfl, henclosing⟩, rfl, rfl⟩ | ⟨⟨n, own, rfl, hknown⟩, rfl, rfl⟩ |
      ⟨i, rfl, rfl, hrepeats⟩)
    · exact .site rfl hsite hfits
    · refine .noSite rfl henclosing fun before after a hpath hafter _ => ?_
      exact absurd (List.append_eq_nil_iff.mp hpath.symm).2 hafter
    · exact .unbound rfl hknown
    · exact .repeatedKeyword rfl hrepeats

/-- The defects of a part are those of the whole there; the part is held by the whole. -/
theorem defective_inPart_iff {i : Nat} : e.Defective Fits Known enclosing k (spot.inPart i) ↔
    ∃ a, e.parts[i]? = some a ∧ a.Defective Fits Known (e.site?.or enclosing) k spot := by
  obtain ⟨path, keyword⟩ := spot
  constructor
  · intro h
    cases h with
    | site h hsite hfits =>
        obtain ⟨a, ha, hat⟩ := Option.bind_eq_some_iff.mp h
        exact ⟨a, ha, .site hat hsite hfits⟩
    | noSite h henclosing hholders =>
        obtain ⟨a, ha, hat⟩ := Option.bind_eq_some_iff.mp h
        have hnone : e.site? = none := hholders [] (i :: path) e rfl nofun rfl
        refine ⟨a, ha, .noSite hat (by rw [hnone, henclosing]; rfl) fun before after b hpath hafter hb => ?_⟩
        exact hholders (i :: before) after b (congrArg (i :: ·) hpath) hafter
          (Option.bind_eq_some_iff.mpr ⟨a, ha, hb⟩)
    | unbound h hknown =>
        obtain ⟨a, ha, hat⟩ := Option.bind_eq_some_iff.mp h
        exact ⟨a, ha, .unbound hat hknown⟩
    | repeatedKeyword h hrepeats =>
        obtain ⟨a, ha, hat⟩ := Option.bind_eq_some_iff.mp h
        exact ⟨a, ha, .repeatedKeyword hat hrepeats⟩
  · rintro ⟨a, ha, h⟩
    have hat : ∀ {path b}, a.at? path = some b → e.at? (i :: path) = some b := fun hb =>
      Option.bind_eq_some_iff.mpr ⟨a, ha, hb⟩
    cases h with
    | site h hsite hfits => exact .site (hat h) hsite hfits
    | noSite h henclosing hholders =>
        obtain ⟨hnone, henclosing⟩ := Option.or_eq_none_iff.mp henclosing
        refine .noSite (hat h) henclosing fun before after b hpath hafter hb => ?_
        cases before with
        | nil => cases hb; exact hnone
        | cons j before =>
            obtain ⟨rfl, htail⟩ := List.cons.inj hpath
            obtain ⟨a', ha', hb⟩ := Option.bind_eq_some_iff.mp hb
            cases ha.symm.trans ha'
            exact hholders before after b htail hafter hb
    | unbound h hknown => exact .unbound (hat h) hknown
    | repeatedKeyword h hrepeats => exact .repeatedKeyword (hat h) hrepeats

/-- The sites in an expression are its own and those of its parts. -/
theorem hasSite_iff {site : Site} : e.HasSite site ↔ e.site? = some site ∨ ∃ a ∈ e.parts, a.HasSite site := by
  constructor
  · rintro ⟨path, b, hb, hsite⟩
    cases path with
    | nil => cases hb; exact .inl hsite
    | cons i path =>
        obtain ⟨a, ha, hb⟩ := Option.bind_eq_some_iff.mp hb
        exact .inr ⟨a, List.mem_of_getElem? ha, path, b, hb, hsite⟩
  · rintro (hsite | ⟨a, ha, path, b, hb, hsite⟩)
    · exact ⟨[], e, rfl, hsite⟩
    · obtain ⟨i, hi⟩ := List.getElem?_of_mem ha
      exact ⟨i :: path, b, Option.bind_eq_some_iff.mpr ⟨a, hi, hb⟩, hsite⟩

section

variable {site : Site}

@[simp] theorem hasSite_const {value : Literal} {float : Option Bool} : ¬ (const value float).HasSite site := by
  rw [hasSite_iff]
  simp [site?, parts]

@[simp] theorem hasSite_name {n : String} {own : Option Site} : (name n own).HasSite site ↔ own = some site := by
  rw [hasSite_iff]
  simp [site?, parts]

@[simp] theorem hasSite_list {elements : List Expr} :
    (list elements).HasSite site ↔ ∃ a ∈ elements, a.HasSite site := by
  rw [hasSite_iff]
  simp [site?, parts]

@[simp] theorem hasSite_tuple {elements : List Expr} :
    (tuple elements).HasSite site ↔ ∃ a ∈ elements, a.HasSite site := by
  rw [hasSite_iff]
  simp [site?, parts]

@[simp] theorem hasSite_binary {op : BinaryOp} {left right : Expr} {here : Site} :
    (binary op left right here).HasSite site ↔ here = site ∨ left.HasSite site ∨ right.HasSite site := by
  rw [hasSite_iff]
  simp [site?, parts]

@[simp] theorem hasSite_call {callee : Expr} {args : List Expr} {keywords : Option (List (String × Expr))}
    {here : Site} : (call callee args keywords here).HasSite site ↔ here = site ∨ callee.HasSite site ∨
      (∃ a ∈ args, a.HasSite site) ∨ ∃ a ∈ (keywords.getD []).map Prod.snd, a.HasSite site := by
  rw [hasSite_iff]
  simp [site?, parts, or_and_right, exists_or]

end

/-- Where fewer sites fit there are more defects. -/
theorem Defective.mono (hfits : ∀ site, e.HasSite site → Fits' site → Fits site)
    (h : e.Defective Fits Known enclosing k spot) : e.Defective Fits' Known enclosing k spot := by
  cases h with
  | site h hsite hnot => exact .site h hsite fun hfit => hnot (hfits _ ⟨_, _, h, hsite⟩ hfit)
  | noSite h henclosing hholders => exact .noSite h henclosing hholders
  | unbound h hknown => exact .unbound h hknown
  | repeatedKeyword h hrepeats => exact .repeatedKeyword h hrepeats

end Expr

namespace Stmt

variable {Fits Fits' : Site → Prop} {Known : String → Prop} {owner : Option FunctionDecl} {s : Stmt}
  {k : DefectKind}

/-- The defects of a statement itself. -/
theorem defective_itself_iff : s.Defective Fits Known owner k .itself ↔
    ((∃ site, s.site? = some site ∧ ¬ Fits site) ∧ k = .site) ∨
    (((∃ target value site, s = .await target value site) ∧ ∀ fn, owner = some fn → fn.isAsync = false) ∧
      k = .awaitOutside) ∨
    (((∃ value site, s = .ret value site) ∧ owner = none) ∧ k = .returnOutside) := by
  constructor
  · intro h
    cases h with
    | site hsite hfits => exact .inl ⟨⟨_, hsite, hfits⟩, rfl⟩
    | awaitOutside h howner => exact .inr (.inl ⟨⟨⟨_, _, _, h⟩, howner⟩, rfl⟩)
    | returnOutside h howner => exact .inr (.inr ⟨⟨⟨_, _, h⟩, howner⟩, rfl⟩)
  · rintro (⟨⟨site, hsite, hfits⟩, rfl⟩ | ⟨⟨⟨target, value, site, h⟩, howner⟩, rfl⟩ |
      ⟨⟨⟨value, site, h⟩, howner⟩, rfl⟩)
    · exact .site hsite hfits
    · exact .awaitOutside h howner
    · exact .returnOutside h howner

theorem defective_within_iff {i : Nat} {spot : ExprPlace} : s.Defective Fits Known owner k (.within i spot) ↔
    ∃ e, s.exprs[i]? = some e ∧ e.Defective Fits Known s.site? k spot :=
  ⟨fun | .within he h => ⟨_, he, h⟩, fun ⟨_, he, h⟩ => .within he h⟩

end Stmt

theorem Stmt.Defective.mono {Fits Fits' : Site → Prop} {Known : String → Prop} {owner : Option FunctionDecl}
    {s : Stmt} {k : DefectKind} {place : StmtPlace}
    (hfits : ∀ site, s.HasSite site → Fits' site → Fits site)
    (h : s.Defective Fits Known owner k place) : s.Defective Fits' Known owner k place := by
  cases h with
  | site hsite hnot => exact .site hsite fun hfit => hnot (hfits _ (.inl hsite) hfit)
  | awaitOutside h howner => exact .awaitOutside h howner
  | returnOutside h howner => exact .returnOutside h howner
  | within he h =>
      exact .within he (h.mono fun site hsite => hfits site (.inr ⟨_, List.mem_of_getElem? he, hsite⟩))

theorem CompiledUnit.DefectiveBy.mono {Fits Fits' : Site → Prop} {unit : CompiledUnit}
    {builtins : Option (List String)} {k : DefectKind} {place : UnitPlace}
    (hfits : ∀ site, unit.HasSite site → Fits' site → Fits site)
    (h : unit.DefectiveBy Fits builtins k place) : unit.DefectiveBy Fits' builtins k place := by
  cases h with
  | repeatedInput h hrepeats => exact .repeatedInput h hrepeats
  | repeatedFunction hrepeats => exact .repeatedFunction hrepeats
  | repeatedParam hfn hrepeats => exact .repeatedParam hfn hrepeats
  | inFunction hfn hs h =>
      exact .inFunction hfn hs (h.mono fun site hsite =>
        hfits site ⟨_, .inr ⟨_, List.mem_of_getElem? hfn, List.mem_of_getElem? hs⟩, hsite⟩)
  | inModule hs h =>
      exact .inModule hs (h.mono fun site hsite => hfits site ⟨_, .inl (List.mem_of_getElem? hs), hsite⟩)

end Coroutines
