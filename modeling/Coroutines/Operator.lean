import Coroutines.Value.Equality

/-!
# Binary operators

The operators of scripts on values.  An operator either gives a value, raises a type error, or
is refused because its result would be too large.
-/

namespace Coroutines

/-- The greatest number of items of a list. -/
def maxItems : Nat := 4294967295

/-- The greatest number of arguments that the host gives to a call: as many words as its stack has. -/
def maxArguments : Nat := 984 * 1024 / 8

namespace Value

def isIntegral : Value → Bool
  | .int _ | .bool _ => true
  | _ => false

/-- An arithmetic result: an integer if both operands are. -/
def ofArithmetic (left right : Value) (n : Number) : Value :=
  if left.isIntegral && right.isIntegral then .int (.ofNumber n) else .float n

/-- How often a sequence is repeated by an int or a bool, not less than zero. -/
def repeatCount? : Value → Option Number
  | .int n => some (n.val.max .zero)
  | .bool b => some (.ofNat b.toNat)
  | _ => Option.none

/-- The items `count` times in a row; `nan` counts as none.  All items are the arguments of one call that
puts them behind those before. -/
def repeatItems (items : List Value) : Number → Except Abort (List Value)
  | .nan => .ok []
  | .infinite _ => .error .outOfFuel
  | n =>
    let times := (n.toInt?.getD 0).toNat
    if items.isEmpty || times = 0 then .ok []
    else if maxArguments < items.length || maxItems < items.length * times then .error .outOfFuel
    else .ok (List.replicate times items).flatten

theorem repeatItems_cases (items : List Value) (n : Number) :
    repeatItems items n = .error .outOfFuel ∨ ∃ k, repeatItems items n = .ok (List.replicate k items).flatten := by
  unfold repeatItems
  split
  · exact .inr ⟨0, rfl⟩
  · exact .inl rfl
  · simp only
    split
    · exact .inr ⟨0, rfl⟩
    · split
      · exact .inl rfl
      · exact .inr ⟨_, rfl⟩

def ofOption (result : Option Value) : Except Abort Value :=
  match result with
  | some v => .ok v
  | Option.none => .error .tooLarge

def unsupported (op : BinaryOp) (left right : Value) : Except Abort Value :=
  .error (.raise (.unsupportedOperand op.symbol left.kindName right.kindName))

/-- Addition of what is not a pair of numbers. -/
def concat : Value → Value → Except Abort Value
  | .str a, .str b => ofOption ((Text.append? a b).map .str)
  | .list as, .list bs => .ok (.list (as ++ bs))
  | .tuple as, .tuple bs => .ok (.tuple (as ++ bs))
  | left, right => unsupported .add left right

/-- Multiplication of what is not a pair of numbers. -/
def replicate (left right : Value) : Except Abort Value :=
  let (times?, sequence) := match right.repeatCount? with
    | some n => (some n, left)
    | Option.none => (left.repeatCount?, right)
  match times?, sequence with
  | some (.infinite negative), .str _ => .error (.endless (.infinite negative))
  | some n, .str s => ofOption ((Text.copies? s n).map .str)
  | some n, .list items => (repeatItems items n).map .list
  | _, _ => unsupported .mul left right

/-- Order of what is not a pair of numbers. -/
def less : Value → Value → Except Abort Value
  | .str a, .str b => .ok (.bool (Text.lt a b))
  | left, right => .error <| .raise <| .raised .typeError <| some
      s!"'<' not supported between instances of '{left.kindName}' and '{right.kindName}'"

end Value

/-- Applies an operator to two values. -/
def BinaryOp.apply (op : BinaryOp) (left right : Value) : Except Abort Value :=
  match op with
  | .eq => .ok (.bool (left.equals right))
  | .ne => .ok (.bool !(left.equals right))
  | .add =>
    match left.numeric?, right.numeric? with
    | some a, some b => .ok (left.ofArithmetic right (a.add b))
    | _, _ => left.concat right
  | .sub =>
    match left.numeric?, right.numeric? with
    | some a, some b => .ok (left.ofArithmetic right (a.sub b))
    | _, _ => Value.unsupported .sub left right
  | .mul =>
    match left.numeric?, right.numeric? with
    | some a, some b => .ok (left.ofArithmetic right (a.mul b))
    | _, _ => left.replicate right
  | .lt =>
    match left.numeric?, right.numeric? with
    | some a, some b => .ok (.bool (a.lt b))
    | _, _ => left.less right

end Coroutines
