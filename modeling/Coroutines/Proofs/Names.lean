import Coroutines.Handle
import Mathlib.Data.List.Forall2
import Mathlib.Order.Basic

/-!
# Values that are alike

Two executions give the coroutines, groups and objects that they create other numbers.  Their
values are alike when they agree up to a correspondence of these names (`Names`), which grows as
more things are created.
-/

namespace Coroutines

/-- What values name by numbers. -/
inductive NameKind where
  | coroutine
  | group
  | identity
  deriving DecidableEq

/-- A correspondence of the names of two executions. -/
abbrev Names := NameKind → Nat → Nat → Prop

namespace Names

/-- A correspondence that relates no name to two others. -/
def OneToOne (ρ : Names) : Prop :=
  ∀ ⦃k i j i' j'⦄, ρ k i j → ρ k i' j' → (i = i' ↔ j = j')

/-- The names that are the same in both executions. -/
def same : Names := fun _ i j => i = j

theorem same_oneToOne : same.OneToOne := by
  rintro k i j i' j' rfl rfl
  exact Iff.rfl

/-- The correspondence with one more pair. -/
def add (ρ : Names) (k : NameKind) (i j : Nat) : Names :=
  fun k' i' j' => ρ k' i' j' ∨ k' = k ∧ i' = i ∧ j' = j

variable {ρ : Names} {k : NameKind} {i j : Nat}

theorem le_add : ρ ≤ ρ.add k i j := fun _ _ _ h => .inl h

theorem add_self : ρ.add k i j k i j := .inr ⟨rfl, rfl, rfl⟩

/-- New names on both sides keep a correspondence one-to-one. -/
theorem OneToOne.add (h : ρ.OneToOne) (hi : ∀ j', ¬ ρ k i j') (hj : ∀ i', ¬ ρ k i' j) :
    (ρ.add k i j).OneToOne := by
  intro k' a b a' b' hab hab'
  rcases hab with hab | ⟨e, rfl, rfl⟩ <;> rcases hab' with hab' | ⟨e', rfl, rfl⟩
  · exact h hab hab'
  · subst e'
    exact iff_of_false (fun e => hi _ (e ▸ hab)) fun e => hj _ (e ▸ hab)
  · subst e
    exact iff_of_false (fun e => hi _ (e ▸ hab')) fun e => hj _ (e ▸ hab')
  · exact iff_of_true rfl rfl

end Names

theorem exists_of_forall₂ {α γ : Type} {R : α → γ → Prop} {l : List α} {l' : List γ} {a : α}
    (h : List.Forall₂ R l l') (ha : a ∈ l) : ∃ b ∈ l', R a b := by
  induction h with
  | nil => cases ha
  | cons hab _ ih =>
      rcases List.mem_cons.mp ha with rfl | ha
      · exact ⟨_, List.mem_cons_self, hab⟩
      · obtain ⟨b, hb, h⟩ := ih ha
        exact ⟨b, List.mem_cons_of_mem _ hb, h⟩

/-- Coroutines of one name whose numbers correspond. -/
def CoroutineRef.Alike (ρ : Names) (c c' : CoroutineRef) : Prop :=
  c.name = c'.name ∧ ρ .coroutine c.id c'.id

/-- Groups of one size whose numbers correspond. -/
def GroupRef.Alike (ρ : Names) (g g' : GroupRef) : Prop := g.size = g'.size ∧ ρ .group g.id g'.id

/-- Values that agree up to a correspondence of their names, with records that `R` relates. -/
inductive Value.Alike (R : Record → Record → Prop) (ρ : Names) : Value → Value → Prop
  | none : Alike R ρ .none .none
  | bool (b : Bool) : Alike R ρ (.bool b) (.bool b)
  | int (n : Whole) : Alike R ρ (.int n) (.int n)
  | float (x : Number) : Alike R ρ (.float x) (.float x)
  | str (s : String) : Alike R ρ (.str s) (.str s)
  | list {items items' : List Value} (h : List.Forall₂ (Alike R ρ) items items') :
      Alike R ρ (.list items) (.list items')
  | tuple {items items' : List Value} (h : List.Forall₂ (Alike R ρ) items items') :
      Alike R ρ (.tuple items) (.tuple items')
  | builtin (b : Builtin) : Alike R ρ (.builtin b) (.builtin b)
  | function {i i' : Nat} (decl : FunctionDecl) (h : ρ .identity i i') :
      Alike R ρ (.function i decl) (.function i' decl)
  | coroutine {c c' : CoroutineRef} (h : c.Alike ρ c') : Alike R ρ (.coroutine c) (.coroutine c')
  | joinGroup {g g' : GroupRef} (h : g.Alike ρ g') : Alike R ρ (.joinGroup g) (.joinGroup g')
  | exception {i i' : Nat} {r r' : Record} (h : ρ .identity i i') (hr : R r r') :
      Alike R ρ (.exception i r) (.exception i' r')
  | range {i i' : Nat} (start stop step : Whole) (h : ρ .identity i i') :
      Alike R ρ (.range i start stop step) (.range i' start stop step)
  | object {i i' : Nat} {items items' : List Value} (kind : String)
      (capabilities : List Capability) (h : ρ .identity i i')
      (hitems : List.Forall₂ (Alike R ρ) items items') :
      Alike R ρ (.object i kind capabilities items) (.object i' kind capabilities items')

section

variable (R : Record → Record → Prop) (ρ : Names)

/-- The same names, bound to values that are alike. -/
def Bindings.Alike (b b' : Bindings Value) : Prop :=
  List.Forall₂ (fun p p' => p.1 = p'.1 ∧ p.2.Alike R ρ p'.2) b b'

/-- Frames at one place, with bindings that are alike. -/
def Frame.Alike (f f' : Frame) : Prop := f.pc = f'.pc ∧ Bindings.Alike R ρ f.locals f'.locals

/-- Targets whose numbers correspond. -/
inductive Target.Alike : Target → Target → Prop
  | coroutine {c c' : CoroutineRef} (h : c.Alike ρ c') : Alike (.coroutine c) (.coroutine c')
  | group {g g' : GroupRef} (h : g.Alike ρ g') : Alike (.group g) (.group g')

/-- Inputs of one kind that are alike. -/
inductive Input.Alike : Input → Input → Prop
  | start : Alike .start .start
  | value {v v' : Value} (h : v.Alike R ρ v') : Alike (.value v) (.value v')
  | throw {r r' : Record} (h : R r r') : Alike (.throw r) (.throw r')

/-- Steps of one kind that are alike. -/
inductive Step.Alike : Step → Step → Prop
  | await {t t' : Target} (h : t.Alike ρ t') : Alike (.await t) (.await t')
  | ret {v v' : Value} (h : v.Alike R ρ v') : Alike (.ret v) (.ret v')
  | raise {r r' : Record} (h : R r r') : Alike (.raise r) (.raise r')

/-- Outcomes of one kind that are alike. -/
inductive Outcome.Alike : Outcome → Outcome → Prop
  | ok {v v' : Value} (h : v.Alike R ρ v') : Alike (.ok v) (.ok v')
  | error {r r' : Record} (h : R r r') : Alike (.error r) (.error r')

end

variable {R : Record → Record → Prop} {ρ ρ' : Names}

/-! ### Growing correspondences -/

theorem CoroutineRef.Alike.mono (hle : ρ ≤ ρ') {c c' : CoroutineRef} (h : c.Alike ρ c') :
    c.Alike ρ' c' := ⟨h.1, hle _ _ _ h.2⟩

theorem GroupRef.Alike.mono (hle : ρ ≤ ρ') {g g' : GroupRef} (h : g.Alike ρ g') :
    g.Alike ρ' g' := ⟨h.1, hle _ _ _ h.2⟩

mutual

/-- Values stay alike as the correspondence grows. -/
theorem Value.Alike.mono (hle : ρ ≤ ρ') {v v' : Value} : v.Alike R ρ v' → v.Alike R ρ' v'
  | .none => .none
  | .bool b => .bool b
  | .int n => .int n
  | .float x => .float x
  | .str s => .str s
  | .list h => .list (Value.Alike.mono_list hle h)
  | .tuple h => .tuple (Value.Alike.mono_list hle h)
  | .builtin b => .builtin b
  | .function decl h => .function decl (hle _ _ _ h)
  | .coroutine h => .coroutine (h.mono hle)
  | .joinGroup h => .joinGroup (h.mono hle)
  | .exception h hr => .exception (hle _ _ _ h) hr
  | .range a b c h => .range a b c (hle _ _ _ h)
  | .object kind cs h hitems => .object kind cs (hle _ _ _ h) (Value.Alike.mono_list hle hitems)

theorem Value.Alike.mono_list (hle : ρ ≤ ρ') {vs vs' : List Value} :
    List.Forall₂ (Value.Alike R ρ) vs vs' → List.Forall₂ (Value.Alike R ρ') vs vs'
  | .nil => .nil
  | .cons h hs => .cons (h.mono hle) (Value.Alike.mono_list hle hs)

end

theorem Bindings.Alike.mono (hle : ρ ≤ ρ') {b b' : Bindings Value} (h : Bindings.Alike R ρ b b') :
    Bindings.Alike R ρ' b b' := h.imp fun _ _ hp => ⟨hp.1, hp.2.mono hle⟩

theorem Frame.Alike.mono (hle : ρ ≤ ρ') {f f' : Frame} (h : f.Alike R ρ f') : f.Alike R ρ' f' :=
  ⟨h.1, h.2.mono hle⟩

theorem Input.Alike.mono (hle : ρ ≤ ρ') {i i' : Input} (h : i.Alike R ρ i') : i.Alike R ρ' i' := by
  cases h with
  | start => exact .start
  | value h => exact .value (h.mono hle)
  | throw h => exact .throw h

theorem Outcome.Alike.mono (hle : ρ ≤ ρ') {o o' : Outcome} (h : o.Alike R ρ o') :
    o.Alike R ρ' o' := by
  cases h with
  | ok h => exact .ok (h.mono hle)
  | error h => exact .error h

theorem Outcome.Alike.input {o o' : Outcome} (h : o.Alike R ρ o') :
    o.input.Alike R ρ o'.input := by
  cases h with
  | ok h => exact .value h
  | error h => exact .throw h

/-! ### The same names -/

mutual

theorem Value.Alike.refl (hR : ∀ r, R r r) : ∀ v : Value, v.Alike R .same v
  | .none => .none
  | .bool b => .bool b
  | .int n => .int n
  | .float x => .float x
  | .str s => .str s
  | .list items => .list (Value.Alike.refl_items hR items)
  | .tuple items => .tuple (Value.Alike.refl_items hR items)
  | .builtin b => .builtin b
  | .function _ decl => .function decl rfl
  | .coroutine _ => .coroutine ⟨rfl, rfl⟩
  | .joinGroup _ => .joinGroup ⟨rfl, rfl⟩
  | .exception _ r => .exception rfl (hR r)
  | .range _ a b c => .range a b c rfl
  | .object _ kind cs items => .object kind cs rfl (Value.Alike.refl_items hR items)

theorem Value.Alike.refl_items (hR : ∀ r, R r r) :
    ∀ items : List Value, List.Forall₂ (Value.Alike R .same) items items
  | [] => .nil
  | v :: rest => .cons (Value.Alike.refl hR v) (Value.Alike.refl_items hR rest)

end

theorem Bindings.Alike.refl (hR : ∀ r, R r r) (b : Bindings Value) : Bindings.Alike R .same b b :=
  List.forall₂_same.mpr fun p _ => ⟨rfl, Value.Alike.refl hR p.2⟩

theorem Frame.Alike.refl (hR : ∀ r, R r r) (f : Frame) : f.Alike R .same f := ⟨rfl, .refl hR _⟩

theorem Input.Alike.refl (hR : ∀ r, R r r) : ∀ input : Input, input.Alike R .same input
  | .start => .start
  | .value v => .value (.refl hR v)
  | .throw r => .throw (hR r)

end Coroutines
