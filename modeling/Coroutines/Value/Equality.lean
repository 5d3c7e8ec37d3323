import Coroutines.Value.Basic

/-!
# Equality of values

Numbers are equal across their kinds, lists and tuples item by item, functions, ranges, objects
and exceptions by identity.
-/

namespace Coroutines.Value

mutual

/-- The script's `==`. -/
def equals : Value → Value → Bool
  | .none, .none => true
  | .str a, .str b => a = b
  | .list as, .list bs => itemsEqual as bs
  | .tuple as, .tuple bs => itemsEqual as bs
  | .builtin a, .builtin b => a = b
  | .function a _, .function b _ => a = b
  | .coroutine a, .coroutine b => a.id = b.id
  | .joinGroup a, .joinGroup b => a.id = b.id
  | .exception a _, .exception b _ => a = b
  | .range a _ _ _, .range b _ _ _ => a = b
  | .object a _ _ _, .object b _ _ _ => a = b
  | a, b =>
    match a.numeric?, b.numeric? with
    | some x, some y => x.equals y
    | _, _ => false

/-- Equality of two lists of items. -/
def itemsEqual : List Value → List Value → Bool
  | [], [] => true
  | a :: as, b :: bs => a.equals b && itemsEqual as bs
  | _, _ => false

end

end Coroutines.Value
