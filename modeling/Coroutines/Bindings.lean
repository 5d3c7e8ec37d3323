/-!
# Bindings

Values under names, in the order in which the names were first bound.  Binding a name again
keeps its place.
-/

namespace Coroutines

abbrev Bindings (α : Type u) := List (String × α)

namespace Bindings

variable {α : Type u}

def get? (b : Bindings α) (name : String) : Option α :=
  match b with
  | [] => none
  | (n, v) :: rest => if n = name then some v else get? rest name

def set (b : Bindings α) (name : String) (value : α) : Bindings α :=
  match b with
  | [] => [(name, value)]
  | (n, v) :: rest => if n = name then (n, value) :: rest else (n, v) :: set rest name value

def has (b : Bindings α) (name : String) : Bool := (b.get? name).isSome

def names (b : Bindings α) : List String := b.map Prod.fst

/-- The bindings made one after the other. -/
def ofList (l : List (String × α)) : Bindings α := l.foldl (fun b p => b.set p.1 p.2) []

@[simp] theorem get?_nil (name : String) : get? ([] : Bindings α) name = none := rfl

theorem get?_set (b : Bindings α) (name : String) (value : α) (other : String) :
    (b.set name value).get? other = if name = other then some value else b.get? other := by
  induction b with
  | nil => rfl
  | cons p rest ih =>
    obtain ⟨n, v⟩ := p
    by_cases h : n = name
    · subst h; simp only [set, get?, if_true]; split <;> rfl
    · simp only [set, if_neg h, get?, ih]
      by_cases ho : n = other
      · subst ho; simp [Ne.symm h]
      · simp [ho]

theorem get?_set_self (b : Bindings α) (name : String) (value : α) :
    (b.set name value).get? name = some value := by simp [get?_set]

theorem get?_set_of_ne (b : Bindings α) {name other : String} (value : α) (h : name ≠ other) :
    (b.set name value).get? other = b.get? other := by simp [get?_set, h]

/-- A key that stands for an array index: a numeral below `2 ^ 32 - 1` without leading zeros. -/
def index? (key : String) : Option Nat :=
  let cs := key.toList
  if cs.isEmpty || !cs.all Char.isDigit || (cs.head? == some '0' && cs.length ≠ 1) then none
  else
    let n := cs.foldl (fun n c => 10 * n + (c.toNat - 48)) 0
    if n < 4294967295 then some n else none

/-- Puts an index key among index keys in rising order. -/
def insertIndex (n : Nat) (entry : String × α) :
    List (Nat × String × α) → List (Nat × String × α)
  | [] => [(n, entry)]
  | (m, e) :: rest => if n < m then (n, entry) :: (m, e) :: rest else (m, e) :: insertIndex n entry rest

/-- The order of an object's keys: the index keys rising, then the others as they were bound. -/
def indexFirst (b : Bindings α) : Bindings α :=
  let indexed := b.foldl (fun acc e =>
    match index? e.1 with
    | some n => insertIndex n e acc
    | none => acc) []
  indexed.map Prod.snd ++ b.filter fun e => (index? e.1).isNone

end Bindings

end Coroutines
