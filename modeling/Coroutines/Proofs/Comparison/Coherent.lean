import Coroutines.Proofs.Comparison.Order
import Coroutines.Proofs.Exact
import Coroutines.Operator

/-!
# Comparison of values

Equality looks at the content of values (`Value.Content`): two values are equal exactly if they have the same one
and hold no `nan` (`Value.equals_iff`).  Truth and order depend on the content alone, so they do not tell equal
values apart, and the operators `==`, `!=` and `<` fit together (`Value.comparison_coherent`).
-/

namespace Coroutines

namespace Value

/-! ### What equality looks at -/

/-- Of a number its value, whatever its kind, of a sequence the contents of its items, and of what is no data the
identity. -/
inductive Content where
  | none
  | number (n : Number)
  | text (s : String)
  | list (items : List Content)
  | tuple (items : List Content)
  | builtin (b : Builtin)
  | function (identity : Nat)
  | coroutine (id : Nat)
  | joinGroup (id : Nat)
  | exception (identity : Nat)
  | range (identity : Nat)
  | object (identity : Nat)

mutual

def content : Value → Content
  | .none => .none
  | .bool b => .number (.ofNat b.toNat)
  | .int n => .number n.val
  | .float x => .number x
  | .str s => .text s
  | .list items => .list (contents items)
  | .tuple items => .tuple (contents items)
  | .builtin b => .builtin b
  | .function identity _ => .function identity
  | .coroutine c => .coroutine c.id
  | .joinGroup g => .joinGroup g.id
  | .exception identity _ => .exception identity
  | .range identity _ _ _ => .range identity
  | .object identity _ _ _ => .object identity

def contents : List Value → List Content
  | [] => []
  | v :: rest => v.content :: contents rest

end

mutual

/-- The value is not `nan` and holds none, at any depth. -/
def NanFree : Value → Prop
  | .int n => n.val ≠ .nan
  | .float x => x ≠ .nan
  | .list items | .tuple items => AllNanFree items
  | _ => True

def AllNanFree : List Value → Prop
  | [] => True
  | v :: rest => v.NanFree ∧ AllNanFree rest

end

mutual

theorem equals_iff : ∀ a b : Value,
    a.equals b = true ↔ a.NanFree ∧ b.NanFree ∧ a.content = b.content
  | .list as, b => by cases b <;> simp [equals, numeric?, content, NanFree, itemsEqual_iff as]
  | .tuple as, b => by cases b <;> simp [equals, numeric?, content, NanFree, itemsEqual_iff as]
  | .bool p, b => by
      have hp : Number.ofNat p.toNat ≠ .nan := Number.ofInt_ne_nan _
      cases b <;> simp [equals, numeric?, content, NanFree, Number.equals_iff, hp]
      all_goals exact fun h => h ▸ hp
  | .int m, b => by
      cases b <;> simp [equals, numeric?, content, NanFree, Number.equals_iff]
      all_goals exact fun hm h => h ▸ hm
  | .float x, b => by
      cases b <;> simp [equals, numeric?, content, NanFree, Number.equals_iff]
      all_goals exact fun hx h => h ▸ hx
  | .none, b | .str _, b | .builtin _, b | .function _ _, b | .coroutine _, b | .joinGroup _, b
  | .exception _ _, b | .range _ _ _ _, b | .object _ _ _ _, b => by
      cases b <;> simp [equals, numeric?, content, NanFree]

theorem itemsEqual_iff : ∀ as bs : List Value,
    itemsEqual as bs = true ↔ AllNanFree as ∧ AllNanFree bs ∧ contents as = contents bs
  | [], bs => by cases bs <;> simp [itemsEqual, AllNanFree, contents]
  | a :: as, bs => by
      cases bs with
      | nil => simp [itemsEqual, contents]
      | cons b bs =>
          simp only [itemsEqual, AllNanFree, contents, Bool.and_eq_true, equals_iff a b,
            itemsEqual_iff as bs, List.cons.injEq]
          tauto

end

variable {a a' b b' c : Value}

/-- What is equal to something holds no `nan`, and each value without `nan` is equal to itself. -/
theorem equals_self_iff : a.equals a = true ↔ a.NanFree := by
  rw [equals_iff]
  tauto

theorem equals_comm (a b : Value) : a.equals b = b.equals a := by
  rw [Bool.eq_iff_iff, equals_iff, equals_iff]
  tauto

theorem equals_trans (hab : a.equals b = true) (hbc : b.equals c = true) : a.equals c = true := by
  obtain ⟨ha, -, hab⟩ := (equals_iff a b).mp hab
  obtain ⟨-, hc, hbc⟩ := (equals_iff b c).mp hbc
  exact (equals_iff a c).mpr ⟨ha, hc, hab.trans hbc⟩

/-! ### What depends on the content alone -/

namespace Content

def truthy : Content → Bool
  | .none => false
  | .number n => !n.equals .zero
  | .text s => s ≠ ""
  | .list items | .tuple items => !items.isEmpty
  | _ => true

def number? : Content → Option Number
  | .number n => some n
  | _ => Option.none

def text? : Content → Option String
  | .text s => some s
  | _ => Option.none

end Content

theorem isEmpty_contents (items : List Value) : (contents items).isEmpty = items.isEmpty := by
  cases items <;> rfl

theorem truthy_content (v : Value) : v.content.truthy = v.truthy := by
  cases v with
  | bool b => cases b <;> decide +kernel
  | list items => simp [content, Content.truthy, truthy, isEmpty_contents]
  | tuple items => simp [content, Content.truthy, truthy, isEmpty_contents]
  | _ => rfl

theorem number?_content (v : Value) : v.content.number? = v.numeric? := by
  cases v <;> rfl

/-- The text that a value is. -/
def text? : Value → Option String
  | .str s => some s
  | _ => Option.none

theorem text?_content (v : Value) : v.content.text? = v.text? := by
  cases v <;> rfl

theorem text?_eq_some_iff {s : String} : a.text? = some s ↔ a = .str s := by
  cases a <;> simp [text?]

theorem ne_nan {x : Number} (h : a.NanFree) (hx : a.numeric? = some x) : x ≠ .nan := by
  cases a with
  | bool p =>
      cases hx
      exact Number.ofInt_ne_nan _
  | int n =>
      cases hx
      exact h
  | float y =>
      cases hx
      exact h
  | _ => cases hx

/-- A text is no number. -/
theorem numeric?_of_text? {s : String} (h : a.text? = some s) : a.numeric? = Option.none := by
  rw [text?_eq_some_iff.mp h]
  rfl

/-! ### Order -/

/-- Both values are numbers, or both are texts. -/
def Comparable (a b : Value) : Prop :=
  (a.numeric?.isSome ∧ b.numeric?.isSome) ∨ (a.text?.isSome ∧ b.text?.isSome)

theorem Comparable.symm (h : Comparable a b) : Comparable b a := h.imp And.symm And.symm

/-- What `<` says of two values: the order of numbers or that of texts, nothing of other values. -/
def below? (a b : Value) : Option Bool :=
  match a.numeric?, b.numeric?, a.text?, b.text? with
  | some x, some y, _, _ => some (x.lt y)
  | _, _, some s, some t => some (Text.lt s t)
  | _, _, _, _ => Option.none

theorem below?_of_numbers {x y : Number} (ha : a.numeric? = some x) (hb : b.numeric? = some y) :
    below? a b = some (x.lt y) := by
  simp [below?, ha, hb]

theorem below?_of_texts {s t : String} (ha : a.text? = some s) (hb : b.text? = some t) :
    below? a b = some (Text.lt s t) := by
  simp [below?, ha, hb, numeric?_of_text? ha]

/-- Two values that `<` orders are two numbers or two texts. -/
theorem below?_cases {r : Bool} (h : below? a b = some r) :
    (∃ x y, a.numeric? = some x ∧ b.numeric? = some y ∧ r = x.lt y) ∨
      ∃ s t, a.text? = some s ∧ b.text? = some t ∧ r = Text.lt s t := by
  unfold below? at h
  split at h
  · next x y ha hb => exact .inl ⟨x, y, ha, hb, (Option.some.inj h).symm⟩
  · next s t ha hb _ => exact .inr ⟨s, t, ha, hb, (Option.some.inj h).symm⟩
  · cases h

theorem below?_isSome_iff : (below? a b).isSome ↔ Comparable a b := by
  constructor
  · intro h
    obtain ⟨r, hr⟩ := Option.isSome_iff_exists.mp h
    rcases below?_cases hr with ⟨x, y, ha, hb, -⟩ | ⟨s, t, ha, hb, -⟩
    · exact .inl ⟨by rw [ha]; rfl, by rw [hb]; rfl⟩
    · exact .inr ⟨by rw [ha]; rfl, by rw [hb]; rfl⟩
  · rintro (⟨ha, hb⟩ | ⟨ha, hb⟩)
    · obtain ⟨x, hx⟩ := Option.isSome_iff_exists.mp ha
      obtain ⟨y, hy⟩ := Option.isSome_iff_exists.mp hb
      rw [below?_of_numbers hx hy]
      rfl
    · obtain ⟨s, hs⟩ := Option.isSome_iff_exists.mp ha
      obtain ⟨t, ht⟩ := Option.isSome_iff_exists.mp hb
      rw [below?_of_texts hs ht]
      rfl

theorem below?_congr (ha : a.content = a'.content) (hb : b.content = b'.content) :
    below? a b = below? a' b' := by
  simp only [below?, ← number?_content, ← text?_content, ha, hb]

theorem below?_trans (hab : below? a b = some true) (hbc : below? b c = some true) :
    below? a c = some true := by
  -- the value in the middle is a number or a text, and so are those on its sides
  rcases below?_cases hab with ⟨x, y, ha, hb, hxy⟩ | ⟨s, t, ha, hb, hst⟩
  · rcases below?_cases hbc with ⟨y', z, hb', hc, hyz⟩ | ⟨t, u, hb', -, -⟩
    · obtain rfl : y = y' := Option.some.inj (hb.symm.trans hb')
      rw [below?_of_numbers ha hc, Number.lt_trans hxy.symm hyz.symm]
    · rw [numeric?_of_text? hb'] at hb
      cases hb
  · rcases below?_cases hbc with ⟨y, z, hb', -, -⟩ | ⟨t', u, hb', hc, htu⟩
    · rw [numeric?_of_text? hb] at hb'
      cases hb'
    · obtain rfl : t = t' := Option.some.inj (hb.symm.trans hb')
      rw [below?_of_texts ha hc, Text.lt_trans hst.symm htu.symm]

/-- The operator answers as `below?` says, and raises a type error where that says nothing. -/
theorem apply_lt (a b : Value) : BinaryOp.lt.apply a b =
    match below? a b with
    | some r => .ok (.bool r)
    | Option.none => .error <| .raise <| .raised .typeError <| some
        s!"'<' not supported between instances of '{a.kindName}' and '{b.kindName}'" := by
  cases a <;> cases b <;> rfl

theorem apply_lt_eq_ok_iff {v : Value} :
    BinaryOp.lt.apply a b = .ok v ↔ ∃ r, below? a b = some r ∧ v = .bool r := by
  rw [apply_lt]
  cases below? a b <;> simp [eq_comm]

/-- Two values that can be compared are in exactly one of the three relations. -/
theorem count_relations (ha : a.NanFree) (hb : b.NanFree) (h : Comparable a b) :
    ∃ below above, below? a b = some below ∧ below? b a = some above ∧
      [below, a.equals b, above].count true = 1 := by
  obtain ⟨r, hr⟩ := Option.isSome_iff_exists.mp (below?_isSome_iff.mpr h)
  rcases below?_cases hr with ⟨x, y, hx, hy, -⟩ | ⟨s, t, hs, ht, -⟩
  · have hnumbers : a.equals b = x.equals y := by
      cases a <;> cases b <;> simp_all [numeric?, equals]
    refine ⟨_, _, below?_of_numbers hx hy, below?_of_numbers hy hx, ?_⟩
    rw [hnumbers]
    exact Number.count_relations (ne_nan ha hx) (ne_nan hb hy)
  · obtain rfl := text?_eq_some_iff.mp hs
    obtain rfl := text?_eq_some_iff.mp ht
    exact ⟨_, _, rfl, rfl, Text.count_relations s t⟩

/-- **The comparison operators fit together.**

* Equality is an equivalence of the values without `nan`, equal values are equally true, and `!=` is the opposite
  of `==`.
* Of two numbers that are not `nan`, of whatever kinds, and of two texts, exactly one is below the other or they
  are equal; `<` is transitive, and does not change where either side is replaced by an equal value.
* For any other two values `<` raises a type error, whichever comes first. -/
theorem comparison_coherent :
    (∀ a : Value, a.NanFree → a.equals a = true) ∧
    (∀ a b : Value, a.equals b = b.equals a) ∧
    (∀ a b c : Value, a.equals b = true → b.equals c = true → a.equals c = true) ∧
    (∀ a b : Value, a.equals b = true → a.truthy = b.truthy) ∧
    (∀ a b : Value, BinaryOp.eq.apply a b = .ok (.bool (a.equals b)) ∧
      BinaryOp.ne.apply a b = .ok (.bool !(a.equals b))) ∧
    (∀ a b : Value, a.NanFree → b.NanFree → Comparable a b → ∃ below above,
      BinaryOp.lt.apply a b = .ok (.bool below) ∧ BinaryOp.lt.apply b a = .ok (.bool above) ∧
        [below, a.equals b, above].count true = 1) ∧
    (∀ a b c : Value, BinaryOp.lt.apply a b = .ok (.bool true) → BinaryOp.lt.apply b c = .ok (.bool true) →
      BinaryOp.lt.apply a c = .ok (.bool true)) ∧
    (∀ a a' b v : Value, a.equals a' = true →
      (BinaryOp.lt.apply a b = .ok v ↔ BinaryOp.lt.apply a' b = .ok v) ∧
        (BinaryOp.lt.apply b a = .ok v ↔ BinaryOp.lt.apply b a' = .ok v)) ∧
    (∀ a b : Value, ¬ Comparable a b → ∃ message message',
      BinaryOp.lt.apply a b = .error (.raise (.raised .typeError (some message))) ∧
        BinaryOp.lt.apply b a = .error (.raise (.raised .typeError (some message')))) := by
  refine ⟨fun a => equals_self_iff.mpr, equals_comm, fun a b c => equals_trans, fun a b h => ?_,
    fun a b => ⟨rfl, rfl⟩, fun a b ha hb h => ?_, fun a b c hab hbc => ?_, fun a a' b v h => ?_, fun a b h => ?_⟩
  · rw [← truthy_content, ← truthy_content, ((equals_iff a b).mp h).2.2]
  · obtain ⟨below, above, hbelow, habove, hcount⟩ := count_relations ha hb h
    exact ⟨below, above, apply_lt_eq_ok_iff.mpr ⟨_, hbelow, rfl⟩, apply_lt_eq_ok_iff.mpr ⟨_, habove, rfl⟩, hcount⟩
  · obtain ⟨_, hab, ⟨⟩⟩ := apply_lt_eq_ok_iff.mp hab
    obtain ⟨_, hbc, ⟨⟩⟩ := apply_lt_eq_ok_iff.mp hbc
    exact apply_lt_eq_ok_iff.mpr ⟨true, below?_trans hab hbc, rfl⟩
  · have hcontent := ((equals_iff a a').mp h).2.2
    simp only [apply_lt_eq_ok_iff, below?_congr hcontent (Eq.refl b.content),
      below?_congr (Eq.refl b.content) hcontent, true_and]
  · have hab : below? a b = Option.none := Option.not_isSome_iff_eq_none.mp fun hsome =>
      h (below?_isSome_iff.mp hsome)
    have hba : below? b a = Option.none := Option.not_isSome_iff_eq_none.mp fun hsome =>
      h (below?_isSome_iff.mp hsome).symm
    exact ⟨_, _, by rw [apply_lt, hab], by rw [apply_lt, hba]⟩

end Value

end Coroutines
