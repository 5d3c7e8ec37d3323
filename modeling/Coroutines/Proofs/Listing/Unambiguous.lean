import Coroutines.Proofs.Format.Numerals
import Coroutines.Proofs.Listing.Quoted

/-!
# Listings are unambiguous

The text of a value in a listing begins with a character that gives away the kind of the value, and goes on up to a
comma or a closing bracket that is not its own.  So data with the same text is the same
(`Value.repr_unambiguous`).
-/

namespace Coroutines

namespace Value

/-! ### The text of data -/

mutual

/-- Data that a listing shows in full: nothing, truth values, finite integers, texts and sequences of them. -/
def IsData : Value → Prop
  | .none | .bool _ | .str _ => True
  | .int n => n.val.isFinite = true
  | .list items | .tuple items => AllData items
  | _ => False

def AllData : List Value → Prop
  | [] => True
  | v :: rest => v.IsData ∧ AllData rest

end

theorem reprChars_none : Value.none.reprChars = ['N', 'o', 'n', 'e'] := rfl

theorem reprChars_bool (b : Bool) :
    (Value.bool b).reprChars = if b then ['T', 'r', 'u', 'e'] else ['F', 'a', 'l', 's', 'e'] := rfl

theorem reprChars_int (n : Whole) : (Value.int n).reprChars = n.val.chars := rfl

theorem reprChars_str (s : String) :
    (Value.str s).reprChars = quoteMark s.toList :: (quoteBody s.toList ++ [quoteMark s.toList]) := quote_eq s.toList

theorem reprChars_list (items : List Value) : (Value.list items).reprChars = '[' :: (reprItems items ++ [']']) := rfl

/-- The items after the first one, with what separates them. -/
def restChars : List Value → List Char
  | [] => []
  | items => ',' :: ' ' :: reprItems items

theorem reprItems_cons (v : Value) (rest : List Value) : reprItems (v :: rest) = v.reprChars ++ restChars rest := by
  cases rest with
  | nil => exact (List.append_nil _).symm
  | cons w rest => rfl

/-- The end of a tuple: one item has a comma behind it. -/
def tupleEnd : List Value → List Char
  | [_] => [',', ')']
  | _ => [')']

theorem reprChars_tuple (items : List Value) :
    (Value.tuple items).reprChars = '(' :: (reprItems items ++ tupleEnd items) :=
  match items with
  | [] | [_] | _ :: _ :: _ => rfl

/-! ### Where the text of a value begins and ends -/

/-- The kind of the data whose text begins with a character. -/
def kindOfHead (c : Char) : String :=
  if c = 'N' then "NoneType"
  else if c = 'T' ∨ c = 'F' then "bool"
  else if c = '\'' ∨ c = '"' then "str"
  else if c = '[' then "list"
  else if c = '(' then "tuple"
  else if c.isDigit ∨ c = '-' then "int"
  else ""

theorem kindOfHead_of_numeral {c : Char} (h : c.isDigit = true ∨ c = '-') : kindOfHead c = "int" := by
  have hother : ∀ d ∈ ['N', 'T', 'F', '\'', '"', '[', '('], c ≠ d := by
    intro d hd hcd
    have hnone : ∀ d ∈ ['N', 'T', 'F', '\'', '"', '[', '('], ¬ (d.isDigit = true ∨ d = '-') := by
      simp [Char.isDigit]
    exact hnone d hd (hcd ▸ h)
  simp only [List.forall_mem_cons] at hother
  simp [kindOfHead, hother, h]

/-- The text of data gives its kind away. -/
theorem IsData.head {v : Value} (h : v.IsData) : ∃ c cs, v.reprChars = c :: cs ∧ kindOfHead c = v.kindName := by
  cases v with
  | none => exact ⟨_, _, reprChars_none, rfl⟩
  | bool b => cases b <;> exact ⟨_, _, reprChars_bool _, rfl⟩
  | int n =>
      obtain ⟨c, cs, hchars, hc⟩ := Json.chars_head h
      exact ⟨c, cs, hchars, kindOfHead_of_numeral hc⟩
  | str s =>
      refine ⟨_, _, reprChars_str s, ?_⟩
      rcases quoteMark_eq_or s.toList with h | h <;> rw [h] <;> rfl
  | list items => exact ⟨_, _, reprChars_list items, rfl⟩
  | tuple items => exact ⟨_, _, reprChars_tuple items, rfl⟩
  | _ => exact h.elim

/-- What stands behind a value in a listing: nothing, a comma or a closing bracket. -/
def Delimits (cs : List Char) : Prop := ∀ c ∈ cs.head?, c = ',' ∨ c = ']' ∨ c = ')'

theorem Delimits.endsNumeral {cs : List Char} (h : Delimits cs) : Json.EndsNumeral cs := by
  intro c hc
  rcases h c hc with rfl | rfl | rfl <;> decide

/-- What stands behind the last item of a sequence: a closing bracket, with a comma before it or none. -/
inductive Closes : List Char → Prop where
  | list (rest : List Char) : Closes (']' :: rest)
  | tuple (rest : List Char) : Closes (')' :: rest)
  | single (rest : List Char) : Closes (',' :: ')' :: rest)

theorem closes_tupleEnd (items : List Value) (x : List Char) : Closes (tupleEnd items ++ x) :=
  match items with
  | [] | _ :: _ :: _ => .tuple x
  | [_] => .single x

theorem delimits_rest {x : List Char} (h : Closes x) (rest : List Value) : Delimits (restChars rest ++ x) := by
  cases rest with
  | nil => cases h <;> simp [Delimits, restChars]
  | cons v rest => simp [Delimits, restChars]

theorem Closes.head {x : List Char} (h : Closes x) : ∃ c rest, x = c :: rest ∧ kindOfHead c = "" := by
  cases h <;> exact ⟨_, _, rfl, by decide⟩

theorem IsData.kindName_ne {v : Value} (h : v.IsData) : v.kindName ≠ "" := by
  cases v <;> first | exact h.elim | simp [kindName, kind]

/-- An item does not begin where a sequence closes. -/
theorem Closes.ne_reprItems {x y : List Char} (h : Closes x) {v : Value} (hv : v.IsData) (rest : List Value) :
    x ≠ reprItems (v :: rest) ++ y := by
  intro heq
  obtain ⟨c, cs, hclose, hnone⟩ := h.head
  obtain ⟨d, ds, hchars, hkind⟩ := hv.head
  rw [hclose, reprItems_cons, hchars] at heq
  rw [(List.cons.inj heq).1, hkind] at hnone
  exact hv.kindName_ne hnone

/-- What separates two items does not close the sequence. -/
theorem Closes.ne_restChars {x y : List Char} (h : Closes x) (v : Value) (rest : List Value) :
    x ≠ restChars (v :: rest) ++ y := by
  rintro rfl
  cases h

/-! ### Telling data apart -/

mutual

/-- Data with the same text in front of what delimits it is the same. -/
theorem reprChars_append_inj : ∀ {a b : Value} {x y : List Char}, a.IsData → b.IsData → Delimits x → Delimits y →
    a.reprChars ++ x = b.reprChars ++ y → a = b ∧ x = y := by
  intro a b x y ha hb hx hy h
  -- the first characters agree, so only data of one kind is left to compare
  have hkind : a.kindName = b.kindName := by
    obtain ⟨c, cs, hac, hka⟩ := ha.head
    obtain ⟨d, ds, hbd, hkb⟩ := hb.head
    rw [hac, hbd] at h
    rw [← hka, ← hkb, (List.cons.inj h).1]
  cases a with
  | none =>
      cases b with
      | none => exact ⟨rfl, List.append_cancel_left h⟩
      | _ => first | exact hb.elim | exact absurd hkind (by simp [kindName, kind])
  | bool p =>
      cases b with
      | bool q =>
          rw [reprChars_bool, reprChars_bool] at h
          cases p <;> cases q
          · exact ⟨rfl, List.append_cancel_left h⟩
          · exact absurd (List.cons.inj h).1 (by decide)
          · exact absurd (List.cons.inj h).1 (by decide)
          · exact ⟨rfl, List.append_cancel_left h⟩
      | _ => first | exact hb.elim | exact absurd hkind (by simp [kindName, kind])
  | int m =>
      cases b with
      | int n =>
          have hread := congrArg Json.readNumber h
          rw [reprChars_int, reprChars_int, Json.readNumber_chars ha hx.endsNumeral,
            Json.readNumber_chars hb hy.endsNumeral, Option.some.injEq, Prod.mk.injEq] at hread
          obtain ⟨m, hm⟩ := m
          obtain ⟨n, hn⟩ := n
          obtain ⟨rfl, hrest⟩ := hread
          exact ⟨rfl, hrest⟩
      | _ => first | exact hb.elim | exact absurd hkind (by simp [kindName, kind])
  | str s =>
      cases b with
      | str t =>
          obtain ⟨htext, hrest⟩ := quote_append_inj h
          exact ⟨congrArg str (String.toList_injective htext), hrest⟩
      | _ => first | exact hb.elim | exact absurd hkind (by simp [kindName, kind])
  | list as =>
      cases b with
      | list bs =>
          rw [reprChars_list, reprChars_list, List.cons_append, List.cons_append, List.append_assoc,
            List.append_assoc] at h
          obtain ⟨rfl, hrest⟩ := reprItems_append_inj ha hb (.list x) (.list y) (List.cons.inj h).2
          exact ⟨rfl, (List.cons.inj hrest).2⟩
      | _ => first | exact hb.elim | exact absurd hkind (by simp [kindName, kind])
  | tuple as =>
      cases b with
      | tuple bs =>
          rw [reprChars_tuple, reprChars_tuple, List.cons_append, List.cons_append, List.append_assoc,
            List.append_assoc] at h
          obtain ⟨rfl, hrest⟩ := reprItems_append_inj ha hb (closes_tupleEnd as x) (closes_tupleEnd bs y)
            (List.cons.inj h).2
          exact ⟨rfl, List.append_cancel_left hrest⟩
      | _ => first | exact hb.elim | exact absurd hkind (by simp [kindName, kind])
  | _ => exact ha.elim

theorem reprItems_append_inj : ∀ {as bs : List Value} {x y : List Char}, AllData as → AllData bs → Closes x →
    Closes y → reprItems as ++ x = reprItems bs ++ y → as = bs ∧ x = y
  | [], [], _, _, _, _, _, _, h => ⟨rfl, h⟩
  | [], b :: bs, _, _, _, hb, hx, _, h => absurd h (hx.ne_reprItems hb.1 bs)
  | a :: as, [], _, _, ha, _, _, hy, h => absurd h.symm (hy.ne_reprItems ha.1 as)
  | a :: as, b :: bs, x, y, ha, hb, hx, hy, h => by
      rw [reprItems_cons, reprItems_cons, List.append_assoc, List.append_assoc] at h
      -- the first items end at the first comma or bracket that is not their own
      obtain ⟨rfl, hrest⟩ := reprChars_append_inj ha.1 hb.1 (delimits_rest hx as) (delimits_rest hy bs) h
      match as, bs with
      | [], [] => exact ⟨rfl, hrest⟩
      | [], w :: bs => exact absurd hrest (hx.ne_restChars w bs)
      | v :: as, [] => exact absurd hrest.symm (hy.ne_restChars v as)
      | v :: as, w :: bs =>
          have hitems : reprItems (v :: as) ++ x = reprItems (w :: bs) ++ y :=
            @List.append_cancel_left _ [',', ' '] _ _ hrest
          obtain ⟨hsame, hrest⟩ := reprItems_append_inj ha.2 hb.2 hx hy hitems
          exact ⟨by rw [hsame], hrest⟩

end

/-- **Listings are unambiguous.**

* Data with the same text is the same, in its structure and in all its parts.
* The text of a text begins and ends with a mark, a single or a double quote; the one at its end is the first after
  the beginning that no backslash escapes, decoding from left to right what stands between gives the text back, and
  there is no line feed and no tab. -/
theorem repr_unambiguous :
    (∀ a b : Value, a.IsData → b.IsData → a.repr = b.repr → a = b) ∧
    ∀ s : String, ∃ mark body, (mark = '\'' ∨ mark = '"') ∧
      (Value.str s).repr.toList = mark :: (body ++ [mark]) ∧
      closing? mark (body ++ [mark]) = some body.length ∧
      decode? body = some s.toList ∧
      '\n' ∉ (Value.str s).repr.toList ∧ '\t' ∉ (Value.str s).repr.toList := by
  refine ⟨fun a b ha hb h => ?_, fun s => ?_⟩
  · have hchars : a.reprChars ++ [] = b.reprChars ++ [] := by
      rw [List.append_nil, List.append_nil]
      exact String.ofList_injective h
    exact (reprChars_append_inj ha hb (by simp [Delimits]) (by simp [Delimits]) hchars).1
  · have hlisted : (Value.str s).repr.toList = quote s.toList := String.toList_ofList
    rw [hlisted]
    exact ⟨quoteMark s.toList, quoteBody s.toList, quoteMark_eq_or _, quote_eq _, closing?_body _ [],
      decode?_body _, fun h => (not_mem_quote h).1 rfl, fun h => (not_mem_quote h).2 rfl⟩

end Value

end Coroutines
