import Coroutines.Proofs.Checked.Laws
import Coroutines.Proofs.Checked.Sites
import Coroutines.Proofs.Bindings
import Coroutines.Script.Builtins

/-!
# The law of a checked unit

Scripts make new values out of the ones they have: operators and builtins bring in no function of
another unit, and fail with what the static checks leave to the run.  The law of a unit
(`CompiledUnit.law`) states this for everything that its coroutines leave behind, together with what
the checks rule out.
-/

namespace Coroutines

/-! ### Values -/

namespace Value

mutual

/-- Everything in the value that is not data has a property. -/
def Known (P : Value → Prop) : Value → Prop
  | .none | .bool _ | .int _ | .float _ | .str _ | .range _ _ _ _ => True
  | .list items | .tuple items | .object _ _ _ items => AllKnown P items
  | v => P v

def AllKnown (P : Value → Prop) : List Value → Prop
  | [] => True
  | v :: rest => v.Known P ∧ AllKnown P rest

end

mutual

/-- Data without functions and without anything of a run: what a caller may hand to a unit. -/
def IsPlain : Value → Prop
  | .none | .bool _ | .int _ | .float _ | .str _ => True
  | .list items => AllPlain items
  | _ => False

def AllPlain : List Value → Prop
  | [] => True
  | v :: rest => v.IsPlain ∧ AllPlain rest

end

variable {P : Value → Prop}

theorem allKnown_iff {vs : List Value} : AllKnown P vs ↔ ∀ v ∈ vs, v.Known P := by
  induction vs with
  | nil => exact iff_of_true trivial nofun
  | cons v rest ih => simp only [AllKnown, ih, List.forall_mem_cons]

mutual

theorem IsPlain.known : ∀ {v : Value}, v.IsPlain → v.Known P
  | .none, _ | .bool _, _ | .int _, _ | .float _, _ | .str _, _ => trivial
  | .list _, h => AllPlain.known h
  | .tuple _, h | .builtin _, h | .function _ _, h | .coroutine _, h | .joinGroup _, h
  | .exception _ _, h | .range _ _ _ _, h | .object _ _ _ _, h => h.elim

theorem AllPlain.known : ∀ {vs : List Value}, AllPlain vs → AllKnown P vs
  | [], _ => trivial
  | _ :: _, h => ⟨IsPlain.known h.1, AllPlain.known h.2⟩

end

/-- What an iterable value yields is known if the value is. -/
theorem Known.items {v : Value} (h : v.Known P) : ∀ x ∈ v.items, x.Known P := by
  intro x hx
  cases v with
  | str s =>
      obtain ⟨c, -, rfl⟩ := List.mem_map.mp hx
      trivial
  | list items => exact allKnown_iff.mp h x hx
  | tuple items => exact allKnown_iff.mp h x hx
  | range i start stop step =>
      obtain ⟨n, -, rfl⟩ := List.mem_map.mp hx
      trivial
  | object i kind capabilities items =>
      simp only [Value.items] at hx
      split at hx
      · exact allKnown_iff.mp h x hx
      · cases hx
  | _ => cases hx

theorem known_ofArithmetic (left right : Value) (n : Number) :
    (ofArithmetic left right n).Known P := by
  unfold ofArithmetic
  split <;> trivial

end Value

theorem List.known_headD {P : Value → Prop} {vs : List Value}
    (h : ∀ v ∈ vs, v.Known P) : (vs.headD .none).Known P := by
  cases vs with
  | nil => trivial
  | cons v rest => exact h v List.mem_cons_self

theorem List.known_tail {P : Value → Prop} {vs : List Value}
    (h : ∀ v ∈ vs, v.Known P) : ∀ v ∈ vs.tail, v.Known P :=
  fun v hv => h v (List.mem_of_mem_tail hv)

/-! ### Failures -/

/-- The static checks of a unit leave the failure to the run. -/
def Failure.IsDynamic : Failure → Prop
  | .unboundName _ => False
  | .raised excType _ => excType ≠ .syntaxError
  | _ => True

theorem Failure.isDynamic_of_isUsage {f : Failure} (h : f.isUsage = true) : f.IsDynamic := by
  cases f <;> trivial

/-- A computation that ends with a value of which `post` holds, a failure that the static checks leave
to the run, or an error of the host. -/
def Dynamic {α : Type} (post : α → Prop) : Except Abort α → Prop
  | .ok a => post a
  | .error (.script r) => ∃ f : Failure, f.IsDynamic ∧ r = .ofFailure f
  | .error _ => True

namespace Dynamic

variable {α : Type} {post : α → Prop} {P : Value → Prop}

theorem raise {f : Failure} (h : f.IsDynamic) : Dynamic post (.error (.raise f)) := ⟨f, h, rfl⟩

theorem ofOption {post : Value → Prop} {o : Option Value} (h : ∀ v, o = some v → post v) :
    Dynamic post (Value.ofOption o) := by
  cases o with
  | none => trivial
  | some v => exact h v rfl

theorem concat {left right : Value} (hl : left.Known P) (hr : right.Known P) :
    Dynamic (Value.Known P) (left.concat right) := by
  unfold Value.concat
  split
  · refine .ofOption fun v hv => ?_
    obtain ⟨s, -, rfl⟩ := Option.map_eq_some_iff.mp hv
    trivial
  · refine Value.allKnown_iff.mpr fun v hv => ?_
    exact (List.mem_append.mp hv).elim (Value.allKnown_iff.mp hl v) (Value.allKnown_iff.mp hr v)
  · refine Value.allKnown_iff.mpr fun v hv => ?_
    exact (List.mem_append.mp hv).elim (Value.allKnown_iff.mp hl v) (Value.allKnown_iff.mp hr v)
  · exact .raise trivial

theorem copies (s : String) (n : Number) :
    Dynamic (Value.Known P) (Value.ofOption ((Text.copies? s n).map .str)) := by
  refine .ofOption fun v hv => ?_
  obtain ⟨s, -, rfl⟩ := Option.map_eq_some_iff.mp hv
  trivial

theorem repeats {items : List Value} (h : (Value.list items).Known P) (n : Number) :
    Dynamic (Value.Known P) ((Value.repeatItems items n).map .list) := by
  rcases Value.repeatItems_cases items n with hr | ⟨k, hr⟩
  · rw [hr]
    trivial
  · rw [hr]
    refine Value.allKnown_iff.mpr fun x hx => Value.allKnown_iff.mp h x ?_
    obtain ⟨l, hl, hx⟩ := List.mem_flatten.mp hx
    exact List.eq_of_mem_replicate hl ▸ hx

theorem replicate {left right : Value} (hl : left.Known P) (hr : right.Known P) :
    Dynamic (Value.Known P) (left.replicate right) := by
  unfold Value.replicate
  -- the sequence is one of the operands
  cases right.repeatCount? with
  | some count =>
      simp only
      split
      · trivial
      · exact copies ..
      · exact repeats hl _
      · exact .raise trivial
  | none =>
      simp only
      split
      · trivial
      · exact copies ..
      · exact repeats hr _
      · exact .raise trivial

/-- Operators make known values of known values. -/
theorem apply (op : BinaryOp) {left right : Value} (hl : left.Known P)
    (hr : right.Known P) : Dynamic (Value.Known P) (op.apply left right) := by
  cases op with
  | eq => trivial
  | ne => trivial
  | add =>
      simp only [BinaryOp.apply]
      split
      · exact Value.known_ofArithmetic ..
      · exact concat hl hr
  | sub =>
      simp only [BinaryOp.apply]
      split
      · exact Value.known_ofArithmetic ..
      · exact .raise trivial
  | mul =>
      simp only [BinaryOp.apply]
      split
      · exact Value.known_ofArithmetic ..
      · exact replicate hl hr
  | lt =>
      simp only [BinaryOp.apply]
      split
      · trivial
      · unfold Value.less
        split
        · trivial
        · exact .raise fun h => by cases h

theorem length (v : Value) : Dynamic (Value.Known P) (Builtin.length v) := by
  unfold Builtin.length
  split
  · trivial
  · trivial
  · trivial
  · trivial
  · exact .raise nofun

theorem absolute (v : Value) : Dynamic (Value.Known P) (Builtin.absolute v) := by
  unfold Builtin.absolute
  split
  · trivial
  · trivial
  · trivial
  · exact .raise nofun

/-- The bounds of a range. -/
theorem indices (args : List Value) : Dynamic (fun _ => True) (args.mapM Builtin.index) := by
  induction args with
  | nil => trivial
  | cons v rest ih =>
      have hv : Dynamic (fun _ => True) (Builtin.index v) := by
        unfold Builtin.index
        split
        · trivial
        · trivial
        · exact .raise nofun
      rw [List.mapM_cons]
      cases hi : Builtin.index v with
      | error e =>
          rw [hi] at hv
          cases e with
          | script r => exact hv
          | _ => trivial
      | ok n =>
          cases hr : rest.mapM Builtin.index with
          | error e =>
              rw [hr] at ih
              cases e with
              | script r => exact ih
              | _ => trivial
          | ok ns => trivial

theorem sumItems {acc : Value} {items : List Value} (ha : acc.Known P)
    (hi : ∀ v ∈ items, v.Known P) :
    Dynamic (Value.Known P) (Builtin.sumItems acc items) := by
  induction items generalizing acc with
  | nil => exact ha
  | cons v rest ih =>
      have happ := apply .add ha (hi v List.mem_cons_self)
      simp only [Builtin.sumItems]
      split
      · next acc' e =>
          rw [e] at happ
          exact ih happ fun v' hv => hi v' (List.mem_cons_of_mem v hv)
      · next e =>
          rw [e] at happ
          exact happ

theorem printed (args : List Value) : Dynamic (Value.Known P) (Builtin.printed args).2 := by
  rcases Builtin.printed_snd args with h | h <;> rw [h] <;> trivial

end Dynamic

end Coroutines
