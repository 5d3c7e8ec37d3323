import Coroutines.Proofs.Checked.Values
import Coroutines.Script.Host

/-!
# Builtins under the law of a unit

The law of a unit allows what its static checks promise.  Builtins uphold it, if the calls that they
make do.
-/

namespace Coroutines

/-- A scope of the name may bind `n`: module statements do, or a function of the scope's name. -/
def CompiledUnit.Binds (unit : CompiledUnit) (scope n : String) : Prop :=
  n ∈ assignedNames unit.module ∨
    ∃ fn ∈ unit.functions, fn.name = scope ∧ n ∈ assignedNames fn.body

/-- An exception that the static checks of a unit do not rule out: no syntax error, no unbound name
but one that is bound somewhere in the scope that raised it, the innermost of its frames, and every
frame inside the source. -/
structure Record.Checked (unit : CompiledUnit) (r : Record) : Prop where
  noSyntaxError : r.failure.excType ≠ .syntaxError
  unbound : ∀ {n}, r.failure = .unboundName n →
    ∃ frame, r.frames.getLast? = some frame ∧ unit.Binds frame.site.name n
  fits : ∀ frame ∈ r.frames, frame.site.Fits (Text.lines unit.source)

theorem Record.checked_ofFailure {unit : CompiledUnit} {f : Failure} (h : f.IsDynamic) :
    (Record.ofFailure f).Checked unit where
  noSyntaxError := by
    cases f with
    | raised excType message => exact h
    | _ => nofun
  unbound {n} e := by
    obtain rfl : f = .unboundName n := e
    exact h.elim
  fits := nofun

/-- A frame outside the others leaves the innermost one. -/
theorem Record.Checked.within {unit : CompiledUnit} {r : Record} (h : r.Checked unit)
    {frame : CallFrame} (hf : frame.site.Fits (Text.lines unit.source)) :
    (r.within frame).Checked unit where
  noSyntaxError := h.noSyntaxError
  unbound {n} e := by
    obtain ⟨last, hlast, hb⟩ := h.unbound e
    exact ⟨last, by rw [frames_within, List.getLast?_cons, hlast]; rfl, hb⟩
  fits := List.forall_mem_cons.mpr ⟨hf, h.fits⟩

namespace CompiledUnit

/-- A function is one of the unit's own. -/
def Owns (unit : CompiledUnit) : Value → Prop
  | .function _ decl => decl ∈ unit.functions
  | _ => True

/-- What the coroutines of a unit leave behind: functions of the unit only, exceptions that its static
checks do not rule out, bodies with a value for every parameter, and globals with a value for every
declared input. -/
def law (unit : CompiledUnit) : Law Body Globals where
  value := Value.Known unit.Owns
  record := Record.Checked unit
  body
    | .function decl, locals => decl ∈ unit.functions ∧ decl.isAsync = true ∧
        locals.All (Value.Known unit.Owns) ∧ ∀ x ∈ decl.params, locals.has x = true
    | .joined _, _ => True
  shared g := g.bindings.All (Value.Known unit.Owns) ∧
    ∀ x ∈ unit.inputs.getD [], g.bindings.has x = true

variable {unit : CompiledUnit}

theorem law_closed : unit.law.Closed where
  usage hf := Record.checked_ofFailure (Failure.isDynamic_of_isUsage hf)
  list h := Value.allKnown_iff.mpr h
  exception _ := trivial

/-- Calls of known values with known arguments uphold the law of a unit. -/
def CallsUphold (unit : CompiledUnit) (call : Calls) : Prop :=
  ∀ {fn : Value} {args : List Value} {kwargs : Bindings Value}, fn.Known unit.Owns →
    (∀ v ∈ args, v.Known unit.Owns) → kwargs.All (Value.Known unit.Owns) →
    (call fn args kwargs).Upholds unit.law (Value.Known unit.Owns) (Record.Checked unit)

end CompiledUnit

section

variable {unit : CompiledUnit} {α : Type} {post : α → Prop}

theorem Dynamic.upholds {result : Except Abort α} (h : Dynamic post result) :
    (Action.ofExcept result : Script α).Upholds unit.law post (Record.Checked unit) := by
  rcases result with (r | _ | _ | _ | _) | a
  · obtain ⟨f, hf, rfl⟩ := h
    exact Record.checked_ofFailure hf
  · trivial
  · trivial
  · trivial
  · trivial
  · exact h

/-- A failure that the static checks leave to the run. -/
theorem Failure.IsDynamic.upholds {f : Failure} (h : f.IsDynamic) :
    (Action.abort (.raise f) : Script α).Upholds unit.law post (Record.Checked unit) :=
  Record.checked_ofFailure h

end

/-- Arguments are refused with failures that the static checks leave to the run. -/
theorem Signature.isDynamic_of_check {sig : Signature} {args : List Value} {kwargs : Bindings Value}
    {f : Failure} (h : sig.check args kwargs = some f) : f.IsDynamic := by
  simp only [check] at h
  split at h
  · cases h
    trivial
  · rcases hk : kwargs.names.find? (!sig.keywords.contains ·) with - | k <;> rw [hk] at h
    · obtain ⟨x, -, hx⟩ := List.exists_of_findSome?_eq_some (h : args.zipIdx.findSome? _ = some f)
      simp only [argFailure?] at hx
      split at hx
      · split at hx
        · cases hx
        · cases hx
          trivial
      · cases hx
    · cases h
      trivial

namespace Builtin

variable {unit : CompiledUnit} {call : Calls}

theorem upholds_makeRange (args : List Value) :
    (makeRange args).Upholds unit.law (Value.Known unit.Owns) (Record.Checked unit) := by
  refine (Dynamic.indices args).upholds.bind fun bounds _ => ?_
  simp only
  split
  · exact Failure.IsDynamic.upholds nofun
  · exact fun n => trivial

/-- The rows of known columns are known. -/
theorem known_rows {P : Value → Prop} (n : Nat) {columns : List (List Value)}
    (h : ∀ column ∈ columns, ∀ v ∈ column, v.Known P) :
    ∀ row ∈ rows n columns, ∀ v ∈ row, v.Known P := by
  induction n generalizing columns with
  | zero => nofun
  | succ n ih =>
      refine List.forall_mem_cons.mpr ⟨fun v hv => ?_, ih fun column hc => ?_⟩
      · obtain ⟨column, hc, rfl⟩ := List.mem_map.mp hv
        exact List.known_headD (h column hc)
      · obtain ⟨whole, hw, rfl⟩ := List.mem_map.mp hc
        exact List.known_tail (h whole hw)

theorem upholds_mapRows (hcall : unit.CallsUphold call) {fn : Value} (hfn : fn.Known unit.Owns)
    {table : List (List Value)} (h : ∀ row ∈ table, ∀ v ∈ row, v.Known unit.Owns) :
    (mapRows call fn table).Upholds unit.law (fun vs => ∀ v ∈ vs, v.Known unit.Owns)
      (Record.Checked unit) := by
  induction table with
  | nil => exact fun v hv => by cases hv
  | cons row rest ih =>
      obtain ⟨hrow, hrest⟩ := List.forall_mem_cons.mp h
      exact (hcall hfn hrow .nil).bind fun v hv => (ih hrest).bind fun vs hvs =>
        List.forall_mem_cons.mpr ⟨hv, hvs⟩

theorem upholds_filterItems (hcall : unit.CallsUphold call) {predicate : Value}
    (hp : predicate.Known unit.Owns) {items : List Value}
    (h : ∀ v ∈ items, v.Known unit.Owns) :
    (filterItems call predicate items).Upholds unit.law (fun vs => ∀ v ∈ vs, v.Known unit.Owns)
      (Record.Checked unit) := by
  induction items with
  | nil => exact fun v hv => by cases hv
  | cons item rest ih =>
      obtain ⟨hitem, hrest⟩ := List.forall_mem_cons.mp h
      -- whatever tells whether the item is kept
      have hkeep : ∀ {x : Script Value},
          x.Upholds unit.law (Value.Known unit.Owns) (Record.Checked unit) →
          (x.bind fun keep => (filterItems call predicate rest).bind fun vs =>
            .done (.ok (if keep.truthy then item :: vs else vs))).Upholds unit.law
              (fun vs => ∀ v ∈ vs, v.Known unit.Owns) (Record.Checked unit) := by
        intro x hx
        refine hx.bind fun keep _ => (ih hrest).bind fun vs hvs => ?_
        show ∀ v ∈ if keep.truthy then item :: vs else vs, v.Known unit.Owns
        split
        · exact List.forall_mem_cons.mpr ⟨hitem, hvs⟩
        · exact hvs
      simp only [filterItems]
      split
      · exact hkeep (x := .done (.ok item)) hitem
      · exact hkeep (hcall hp (List.forall_mem_singleton.mpr hitem) .nil)

theorem upholds_members (args : List Value) :
    (members args).Upholds unit.law (fun _ => True) (Record.Checked unit) := by
  induction args with
  | nil => trivial
  | cons v rest ih =>
      cases v with
      | coroutine c => exact ih.bind fun _ _ => trivial
      | joinGroup g => exact ⟨trivial, fun c => ih.bind fun _ _ => trivial⟩
      | _ => exact ih

theorem upholds_compute (hcall : unit.CallsUphold call) (b : Builtin) {args : List Value}
    (h : ∀ v ∈ args, v.Known unit.Owns) (kwargs : Bindings Value) :
    (b.compute call kwargs args).Upholds unit.law (Value.Known unit.Owns)
      (Record.Checked unit) := by
  have hhead := List.known_headD h
  cases b with
  | abs => exact (Dynamic.absolute _).upholds
  | len => exact (Dynamic.length _).upholds
  | list =>
      refine Value.allKnown_iff.mpr fun v hv => ?_
      cases args with
      | nil => cases hv
      | cons a rest => exact hhead.items v hv
  | range => exact upholds_makeRange args
  | map =>
      refine (upholds_mapRows hcall hhead (known_rows _ fun column hc => ?_)).bind fun vs hvs =>
        Value.allKnown_iff.mpr hvs
      obtain ⟨v, hv, rfl⟩ := List.mem_map.mp hc
      exact (List.known_tail h v hv).items
  | filter =>
      have hitems := (List.known_headD (List.known_tail h)).items
      simp only [compute]
      split
      · exact (upholds_filterItems hcall hhead hitems).bind fun vs hvs => Value.allKnown_iff.mpr hvs
      · exact (upholds_filterItems hcall hhead hitems).bind fun vs hvs => Value.allKnown_iff.mpr hvs
      · exact Failure.IsDynamic.upholds trivial
  | sum =>
      simp only [compute]
      split
      · exact Failure.IsDynamic.upholds nofun
      · refine (Dynamic.sumItems ?_ hhead.items).upholds
        cases hs : args.tail.head? with
        | none => trivial
        | some v => exact h v (List.mem_of_mem_tail (List.mem_of_mem_head? hs))
  | any => trivial
  | all => trivial
  | print => exact ⟨fun _ hg => hg, (Dynamic.printed args).upholds⟩
  | run =>
      simp only [compute]
      split
      · exact ⟨fun v hv => hv, fun r hr => hr⟩
      · exact Failure.IsDynamic.upholds nofun
  | gather => exact (upholds_members args).bind fun cs _ => ⟨fun g => trivial, fun r hr => hr⟩

/-- **Builtins uphold the law of a unit**, if the calls that they make do. -/
theorem upholds_execute (hcall : unit.CallsUphold call) (b : Builtin) {args : List Value}
    (h : ∀ v ∈ args, v.Known unit.Owns) (kwargs : Bindings Value) :
    (b.execute call kwargs args).Upholds unit.law (Value.Known unit.Owns)
      (Record.Checked unit) := by
  unfold execute
  split
  · trivial
  · exact upholds_compute hcall b h kwargs

theorem upholds_invoke (hcall : unit.CallsUphold call) (b : Builtin) {args : List Value}
    (h : ∀ v ∈ args, v.Known unit.Owns) (kwargs : Bindings Value) :
    (b.invoke call args kwargs).Upholds unit.law (Value.Known unit.Owns)
      (Record.Checked unit) := by
  unfold invoke Signature.guard
  split
  · next f hf => exact Failure.IsDynamic.upholds (Signature.isDynamic_of_check hf)
  · exact upholds_execute hcall b h kwargs

end Builtin

end Coroutines
