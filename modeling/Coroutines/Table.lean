/-!
# Tables

Rows under consecutive numbers.  Rows are added and changed, never removed, so a number stays the
name of its row.
-/

namespace Coroutines

structure Table (α : Type) where
  rows : Array α := #[]

namespace Table

variable {α : Type}

def size (t : Table α) : Nat := t.rows.size

def get? (t : Table α) (i : Nat) : Option α := t.rows[i]?

/-- Adds a row, whose number is the size before. -/
def push (t : Table α) (a : α) : Table α := ⟨t.rows.push a⟩

/-- Changes a row; a number without a row changes nothing. -/
def modify (t : Table α) (i : Nat) (f : α → α) : Table α := ⟨t.rows.modify i f⟩

@[simp] theorem size_push (t : Table α) (a : α) : (t.push a).size = t.size + 1 := by
  simp [push, size]

@[simp] theorem size_modify (t : Table α) (i : Nat) (f : α → α) : (t.modify i f).size = t.size := by
  simp [modify, size]

theorem get?_push (t : Table α) (a : α) (i : Nat) :
    (t.push a).get? i = if i = t.size then some a else t.get? i := Array.getElem?_push

theorem get?_modify (t : Table α) (i : Nat) (f : α → α) (j : Nat) :
    (t.modify i f).get? j = if i = j then (t.get? j).map f else t.get? j := by
  simp [modify, get?, Array.getElem?_modify]

theorem get?_modify_self (t : Table α) (i : Nat) (f : α → α) :
    (t.modify i f).get? i = (t.get? i).map f := by simp [get?_modify]

theorem get?_modify_of_ne (t : Table α) {i j : Nat} (f : α → α) (h : i ≠ j) :
    (t.modify i f).get? j = t.get? j := by simp [get?_modify, h]

theorem lt_size_of_get? {t : Table α} {i : Nat} {a : α} (h : t.get? i = some a) : i < t.size := by
  unfold get? at h
  exact (Array.getElem?_eq_some_iff.mp h).1

end Table

end Coroutines
