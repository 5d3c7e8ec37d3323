import Coroutines.Proofs.Isolation.Actions
import Coroutines.Script.Builtins
import Coroutines.Script.Binding

/-!
# Operations on values that agree

Values that agree up to names are of one kind, have one text and equal the same, as names that correspond
one-to-one do.  Operators and the checks of arguments therefore give results that agree, or fail alike.
-/

namespace Coroutines

variable {ρ ρ' : Names} {v v' a a' b b' : Value}

/-- Lists of values that agree one by one. -/
abbrev AllAlike (ρ : Names) : List Value → List Value → Prop := List.Forall₂ (Value.Alike Eq ρ)

theorem AllAlike.mono (hle : ρ ≤ ρ') {vs vs' : List Value} (h : AllAlike ρ vs vs') : AllAlike ρ' vs vs' :=
  h.imp fun _ _ hv => hv.mono hle

namespace Value.Alike

/-! ### What values are -/

theorem kind (h : v.Alike Eq ρ v') : v.kind = v'.kind := by
  cases h with
  | exception _ hr => rw [hr]; rfl
  | _ => rfl

theorem kindName (h : v.Alike Eq ρ v') : v.kindName = v'.kindName := congrArg Kind.name h.kind

theorem supports (h : v.Alike Eq ρ v') (c : Capability) : v.supports c = v'.supports c := by
  rw [Value.supports, Value.supports, h.kind]

theorem truthy (h : v.Alike Eq ρ v') : v.truthy = v'.truthy := by
  cases h with
  | list h | tuple h => cases h <;> rfl
  | _ => rfl

theorem numeric? (h : v.Alike Eq ρ v') : v.numeric? = v'.numeric? := by cases h <;> rfl

theorem endless (h : v.Alike Eq ρ v') : v.endless = v'.endless := by cases h <;> rfl

theorem items (h : v.Alike Eq ρ v') : AllAlike ρ v.items v'.items := by
  cases h with
  | str s =>
      refine List.forall₂_same.mpr fun v hv => ?_
      obtain ⟨c, -, rfl⟩ := List.mem_map.mp hv
      exact .str _
  | list h | tuple h => exact h
  | range start stop step _ =>
      refine List.forall₂_same.mpr fun v hv => ?_
      obtain ⟨n, -, rfl⟩ := List.mem_map.mp hv
      exact .int n
  | object kind cs _ h =>
      simp only [Value.items]
      split
      · exact h
      · exact .nil
  | _ => exact .nil

mutual

theorem reprChars {v v' : Value} : v.Alike Eq ρ v' → v.reprChars = v'.reprChars
  | .none | .bool _ | .int _ | .float _ | .str _ | .builtin _ | .function .. | .range .. | .object .. => rfl
  | .list h => congrArg (fun cs => '[' :: cs ++ [']']) (reprItems h)
  | .tuple .nil => rfl
  | .tuple (.cons h .nil) => congrArg (fun cs => '(' :: cs ++ [',', ')']) (reprChars h)
  | .tuple (.cons h (.cons h' hs)) => congrArg (fun cs => '(' :: cs ++ [')']) (reprItems (.cons h (.cons h' hs)))
  | .coroutine h => congrArg (fun name => s!"<coroutine object {name}>".toList) h.1
  | .joinGroup h => congrArg (fun size => s!"<_GatheringFuture size={size}>".toList) h.1
  | .exception _ rfl => rfl

theorem reprItems {vs vs' : List Value} : AllAlike ρ vs vs' → Value.reprItems vs = Value.reprItems vs'
  | .nil => rfl
  | .cons h .nil => reprChars h
  | .cons h (.cons h' hs) =>
      congrArg₂ (fun cs rest => cs ++ ',' :: ' ' :: rest) (reprChars h) (reprItems (.cons h' hs))

end

theorem display (h : v.Alike Eq ρ v') : v.display = v'.display := by
  have hrepr : v.repr = v'.repr := congrArg String.ofList h.reprChars
  cases h with
  | str => rfl
  | exception _ hr => rw [hr]; rfl
  | _ => exact hrepr

/-! ### Equality -/

mutual

theorem equals (hρ : ρ.OneToOne) {a a' b b' : Value} (ha : a.Alike Eq ρ a') (hb : b.Alike Eq ρ b') :
    a.equals b = a'.equals b' := by
  cases ha with
  | list h =>
      cases hb with
      | list h' => simp only [Value.equals, itemsEqual hρ h h']
      | _ => rfl
  | tuple h =>
      cases hb with
      | tuple h' => simp only [Value.equals, itemsEqual hρ h h']
      | _ => rfl
  | function decl h =>
      cases hb with
      | function decl' h' => simp only [Value.equals, hρ h h']
      | _ => rfl
  | coroutine h =>
      cases hb with
      | coroutine h' => simp only [Value.equals, hρ h.2 h'.2]
      | _ => rfl
  | joinGroup h =>
      cases hb with
      | joinGroup h' => simp only [Value.equals, hρ h.2 h'.2]
      | _ => rfl
  | exception h hr =>
      cases hb with
      | exception h' hr' => simp only [Value.equals, hρ h h']
      | _ => rfl
  | range start stop step h =>
      cases hb with
      | range _ _ _ h' => simp only [Value.equals, hρ h h']
      | _ => rfl
  | object kind cs h hi =>
      cases hb with
      | object kind' cs' h' hi' => simp only [Value.equals, hρ h h']
      | _ => rfl
  | _ => cases hb <;> rfl

theorem itemsEqual (hρ : ρ.OneToOne) {as as' bs bs' : List Value} (ha : AllAlike ρ as as') (hb : AllAlike ρ bs bs') :
    Value.itemsEqual as bs = Value.itemsEqual as' bs' := by
  cases ha with
  | nil => cases hb <;> rfl
  | cons h hs =>
      cases hb with
      | nil => rfl
      | cons h' hs' => simp only [Value.itemsEqual, equals hρ h h', itemsEqual hρ hs hs']

end

theorem ofArithmetic (ha : a.Alike Eq ρ a') (hb : b.Alike Eq ρ b') (n : Number) :
    (a.ofArithmetic b n).Alike Eq ρ (a'.ofArithmetic b' n) := by
  have hintegral : ∀ {v v' : Value}, v.Alike Eq ρ v' → v.isIntegral = v'.isIntegral := fun h => by cases h <;> rfl
  rw [Value.ofArithmetic, Value.ofArithmetic, hintegral ha, hintegral hb]
  split
  · exact .int _
  · exact .float _

end Value.Alike

/-! ### Results of operators -/

namespace Ends

theorem text (s? : Option String) :
    Ends (Value.Alike Eq ρ) (Value.ofOption (s?.map .str)) (Value.ofOption (s?.map .str)) := by
  cases s? with
  | none => exact .error _
  | some s => exact .ok (.str s)

theorem unsupported (op : BinaryOp) (ha : a.Alike Eq ρ a') (hb : b.Alike Eq ρ b') :
    Ends (Value.Alike Eq ρ) (Value.unsupported op a b) (Value.unsupported op a' b') := by
  rw [Value.unsupported, Value.unsupported, ha.kindName, hb.kindName]
  exact .error _

theorem concat (ha : a.Alike Eq ρ a') (hb : b.Alike Eq ρ b') :
    Ends (Value.Alike Eq ρ) (a.concat b) (a'.concat b') := by
  have hunsupported := unsupported .add ha hb
  cases ha with
  | str s =>
      cases hb with
      | str t => exact text _
      | _ => exact hunsupported
  | list h =>
      cases hb with
      | list h' => exact .ok (.list (List.rel_append h h'))
      | _ => exact hunsupported
  | tuple h =>
      cases hb with
      | tuple h' => exact .ok (.tuple (List.rel_append h h'))
      | _ => exact hunsupported
  | _ => exact hunsupported

/-- Lists that agree are repeated to lists that agree, or are both too long. -/
theorem repeatItems {items items' : List Value} (h : AllAlike ρ items items') (n : Number) :
    Ends (Value.Alike Eq ρ) ((Value.repeatItems items n).map .list)
      ((Value.repeatItems items' n).map .list) := by
  have hempty : items.isEmpty = items'.isEmpty := by cases h <;> rfl
  have hreplicate : ∀ k, List.Forall₂ (AllAlike ρ) (List.replicate k items) (List.replicate k items') := by
    intro k
    induction k with
    | zero => exact .nil
    | succ k ih => exact .cons h ih
  cases n with
  | nan => exact .ok (.list .nil)
  | infinite => exact .error _
  | _ =>
      simp only [Value.repeatItems, hempty, h.length_eq]
      split
      · exact .ok (.list .nil)
      · split
        · exact .error _
        · exact .ok (.list (List.rel_flatten (hreplicate _)))

theorem replicate (ha : a.Alike Eq ρ a') (hb : b.Alike Eq ρ b') :
    Ends (Value.Alike Eq ρ) (a.replicate b) (a'.replicate b') := by
  have hunsupported := unsupported .mul ha hb
  have hcount : ∀ {v v' : Value}, v.Alike Eq ρ v' → v.repeatCount? = v'.repeatCount? := fun h => by cases h <;> rfl
  unfold Value.replicate
  rw [← hcount ha, ← hcount hb]
  -- the side that counts, and the sequence on the other side
  cases b.repeatCount? with
  | some n =>
      cases ha with
      | str s => cases n <;> first | exact .error _ | exact text _
      | list h => cases n <;> exact repeatItems h _
      | _ => cases n <;> exact hunsupported
  | none =>
      cases a.repeatCount? with
      | none => cases hb <;> exact hunsupported
      | some n =>
          cases hb with
          | str s => cases n <;> first | exact .error _ | exact text _
          | list h => cases n <;> exact repeatItems h _
          | _ => cases n <;> exact hunsupported

theorem less (ha : a.Alike Eq ρ a') (hb : b.Alike Eq ρ b') : Ends (Value.Alike Eq ρ) (a.less b) (a'.less b') := by
  have hkinds : ∀ message : String → String → String, Ends (Value.Alike Eq ρ)
      (.error (Abort.raise (.raised .typeError (some (message a.kindName b.kindName)))))
      (.error (Abort.raise (.raised .typeError (some (message a'.kindName b'.kindName))))) := fun message => by
    rw [ha.kindName, hb.kindName]
    exact .error _
  have hother := hkinds fun left right => s!"'<' not supported between instances of '{left}' and '{right}'"
  cases ha with
  | str s =>
      cases hb with
      | str t => exact .ok (.bool _)
      | _ => exact hother
  | _ => exact hother

end Ends

/-- **Operators give results that agree, or fail alike.** -/
theorem BinaryOp.ends_apply (op : BinaryOp) (hρ : ρ.OneToOne) (ha : a.Alike Eq ρ a') (hb : b.Alike Eq ρ b') :
    Ends (Value.Alike Eq ρ) (op.apply a b) (op.apply a' b') := by
  cases op with
  | eq | ne =>
      simp only [BinaryOp.apply, ha.equals hρ hb]
      exact .ok (.bool _)
  | add =>
      simp only [BinaryOp.apply, ← ha.numeric?, ← hb.numeric?]
      split
      · exact .ok (ha.ofArithmetic hb _)
      · exact .concat ha hb
  | sub =>
      simp only [BinaryOp.apply, ← ha.numeric?, ← hb.numeric?]
      split
      · exact .ok (ha.ofArithmetic hb _)
      · exact .unsupported .sub ha hb
  | mul =>
      simp only [BinaryOp.apply, ← ha.numeric?, ← hb.numeric?]
      split
      · exact .ok (ha.ofArithmetic hb _)
      · exact .replicate ha hb
  | lt =>
      simp only [BinaryOp.apply, ← ha.numeric?, ← hb.numeric?]
      split
      · exact .ok (.bool _)
      · exact .less ha hb

/-! ### Bindings -/

namespace Bindings.Alike

variable {c c' : Bindings Value}

theorem get? (h : Bindings.Alike Eq ρ c c') (name : String) :
    Option.Rel (Value.Alike Eq ρ) (c.get? name) (c'.get? name) := by
  induction h with
  | nil => exact .none
  | @cons p p' rest rest' hp _ ih =>
      obtain ⟨n, v⟩ := p
      obtain ⟨n', v'⟩ := p'
      obtain ⟨rfl, hv⟩ := hp
      simp only [Bindings.get?]
      split
      · exact .some hv
      · exact ih

theorem has (h : Bindings.Alike Eq ρ c c') (name : String) : c.has name = c'.has name := by
  have hget := h.get? name
  unfold Bindings.has
  generalize c.get? name = x, c'.get? name = x' at hget
  cases hget <;> rfl

theorem names (h : Bindings.Alike Eq ρ c c') : c.names = c'.names := by
  induction h with
  | nil => rfl
  | cons hp _ ih => exact congrArg₂ List.cons hp.1 ih

theorem set (h : Bindings.Alike Eq ρ c c') (name : String) (hv : v.Alike Eq ρ v') :
    Bindings.Alike Eq ρ (c.set name v) (c'.set name v') := by
  induction h with
  | nil => exact .cons ⟨rfl, hv⟩ .nil
  | @cons p p' rest rest' hp hrest ih =>
      obtain ⟨n, x⟩ := p
      obtain ⟨n', x'⟩ := p'
      obtain ⟨rfl, hx⟩ := hp
      simp only [Bindings.set]
      split
      · exact .cons ⟨rfl, hv⟩ hrest
      · exact .cons ⟨rfl, hx⟩ ih

theorem ofList {l l' : List (String × Value)} (h : Bindings.Alike Eq ρ l l') :
    Bindings.Alike Eq ρ (Bindings.ofList l) (Bindings.ofList l') := by
  have hfold : ∀ {l l' : List (String × Value)}, Bindings.Alike Eq ρ l l' → ∀ {c c' : Bindings Value},
      Bindings.Alike Eq ρ c c' → Bindings.Alike Eq ρ (l.foldl (fun b p => b.set p.1 p.2) c)
        (l'.foldl (fun b p => b.set p.1 p.2) c') := by
    intro l l' h
    induction h with
    | nil => exact fun hc => hc
    | @cons p p' _ _ hp _ ih =>
        intro c c' hc
        simp only [List.foldl_cons, hp.1]
        exact ih (hc.set _ hp.2)
  exact hfold h .nil

theorem zip (names : List String) {vs vs' : List Value} (h : AllAlike ρ vs vs') :
    Bindings.Alike Eq ρ (names.zip vs) (names.zip vs') := by
  induction h generalizing names with
  | nil => rw [List.zip_nil_right]; exact .nil
  | cons hv _ ih =>
      cases names with
      | nil => exact .nil
      | cons n names => exact .cons ⟨rfl, hv⟩ (ih names)

end Bindings.Alike

/-! ### Checks of arguments -/

/-- Arguments that agree are refused alike. -/
theorem Signature.check_alike (sig : Signature) {args args' : List Value} {kwargs kwargs' : Bindings Value}
    (ha : AllAlike ρ args args') (hk : Bindings.Alike Eq ρ kwargs kwargs') :
    sig.check args kwargs = sig.check args' kwargs' := by
  have hone : ∀ {v v' : Value} (shape : Option ParamShape), v.Alike Eq ρ v' →
      argFailure? shape v = argFailure? shape v' := by
    intro v v' shape h
    unfold argFailure?
    split
    · rw [h.supports, h.kindName]
    · rfl
  have hfirst : ∀ {args args' : List Value} (f : Value × Nat → Option Failure) (n : Nat), AllAlike ρ args args' →
      (∀ {v v' : Value} (i : Nat), v.Alike Eq ρ v' → f (v, i) = f (v', i)) →
      (args.zipIdx n).findSome? f = (args'.zipIdx n).findSome? f := by
    intro args args' f n h hf
    induction h generalizing n with
    | nil => rfl
    | cons hv _ ih => simp only [List.zipIdx_cons, List.findSome?_cons, hf n hv, ih]
  unfold check
  rw [ha.length_eq, hk.names, hfirst _ 0 ha fun i h => hone (sig.shapeAt? i) h]

namespace FunctionDecl

theorem ends_bindKeywords (fn : FunctionDecl) {locals locals' kwargs kwargs' : Bindings Value}
    (hl : Bindings.Alike Eq ρ locals locals') (hk : Bindings.Alike Eq ρ kwargs kwargs') :
    Ends (Bindings.Alike Eq ρ) (fn.bindKeywords locals kwargs) (fn.bindKeywords locals' kwargs') := by
  induction hk generalizing locals locals' with
  | nil => exact .ok hl
  | @cons p p' rest rest' hp _ ih =>
      obtain ⟨n, v⟩ := p
      obtain ⟨n', v'⟩ := p'
      obtain ⟨rfl, hv⟩ := hp
      simp only [bindKeywords, hl.has]
      split
      · exact .error _
      · split
        · exact .error _
        · exact ih (hl.set _ hv)

/-- Arguments that agree are bound to locals that agree, or fail to fit alike. -/
theorem ends_bindParams (fn : FunctionDecl) {args args' : List Value} {kwargs kwargs' : Bindings Value}
    (ha : AllAlike ρ args args') (hk : Bindings.Alike Eq ρ kwargs kwargs') :
    Ends (Bindings.Alike Eq ρ) (fn.bindParams args kwargs) (fn.bindParams args' kwargs') := by
  have hkeywords := fn.ends_bindKeywords (.ofList (.zip fn.params ha)) hk
  unfold bindParams
  rw [ha.length_eq]
  split
  · exact .error _
  · generalize fn.bindKeywords _ kwargs = r, fn.bindKeywords _ kwargs' = r' at hkeywords
    cases hkeywords with
    | error f => exact .error f
    | @ok locals locals' hl =>
        simp only [hl.has]
        split
        · exact .ok hl
        · exact .error _

end FunctionDecl

end Coroutines
