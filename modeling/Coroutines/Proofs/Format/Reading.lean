import Coroutines.Proofs.Format.Numerals

/-!
# Reading JSON back

The compact text of a JSON value is read as that value (`Json.parse?_compact`), if its numbers are
finite and its objects are such as reading makes them.
-/

namespace Coroutines.Json

/-! ## Texts -/

/-- The two last digits of an escaped control character. -/
theorem ofBase?_hexDigit {n : Nat} (hn : n < 32) :
    ofBase? 16 ['0', '0', hexDigit (n / 16), hexDigit (n % 16)] = some n := by
  have h : ∀ m < 32, ofBase? 16 ['0', '0', hexDigit (m / 16), hexDigit (m % 16)] = some m := by
    decide
  exact h n hn

theorem readUnits?_control {n : Nat} (hn : n < 32) (rest : List Char) :
    readUnits? ('0' :: '0' :: hexDigit (n / 16) :: hexDigit (n % 16) :: rest) =
      some (Char.ofNat n, rest) := by
  have h4 : hex4? ('0' :: '0' :: hexDigit (n / 16) :: hexDigit (n % 16) :: rest) =
      (ofBase? 16 ['0', '0', hexDigit (n / 16), hexDigit (n % 16)]).map (·, rest) := rfl
  rw [ofBase?_hexDigit hn] at h4
  simp only [readUnits?, h4, Option.map_some]
  rw [if_neg (by omega), if_neg (by omega)]

/-- One character of a text, escaped or not. -/
theorem readText_escape (c : Char) (fuel : Nat) (rest : List Char) :
    readText (fuel + 1) (escape c ++ rest) =
      (readText fuel rest).map fun (cs, r) => (c :: cs, r) := by
  by_cases hquote : c = '"'
  · subst hquote; rfl
  by_cases hslash : c = '\\'
  · subst hslash; rfl
  by_cases hback : c = '\x08'
  · subst hback; rfl
  by_cases htab : c = '\t'
  · subst htab; rfl
  by_cases hline : c = '\n'
  · subst hline; rfl
  by_cases hfeed : c = '\x0c'
  · subst hfeed; rfl
  by_cases hreturn : c = '\r'
  · subst hreturn; rfl
  simp only [escape, if_neg hquote, if_neg hslash, if_neg hback, if_neg htab, if_neg hline,
    if_neg hfeed, if_neg hreturn]
  by_cases hcontrol : c.toNat < 0x20
  · have hread : readEscape? ('u' :: '0' :: '0' :: hexDigit (c.toNat / 16) ::
        hexDigit (c.toNat % 16) :: rest) = some (c, rest) :=
      (readUnits?_control hcontrol rest).trans (by rw [Char.ofNat_toNat])
    rw [if_pos hcontrol]
    simp only [List.cons_append, List.nil_append, readText, hread]
  · rw [if_neg hcontrol, List.singleton_append, readText]
    · rw [if_neg hcontrol]
    · exact hquote
    · exact hslash

/-- The characters of a text up to its closing quote. -/
theorem readText_escaped {cs : List Char} {fuel : Nat} (hf : cs.length < fuel) (rest : List Char) :
    readText fuel (cs.flatMap escape ++ '"' :: rest) = some (cs, rest) := by
  induction cs generalizing fuel with
  | nil =>
    obtain ⟨n, rfl⟩ : ∃ n, fuel = n + 1 := ⟨fuel - 1, by simp at hf; omega⟩
    rfl
  | cons c cs ih =>
    simp only [List.length_cons] at hf
    obtain ⟨n, rfl⟩ : ∃ n, fuel = n + 1 := ⟨fuel - 1, by omega⟩
    rw [List.flatMap_cons, List.append_assoc, readText_escape, ih (by omega), Option.map_some]

theorem length_le_escaped (cs : List Char) : cs.length ≤ (cs.flatMap escape).length := by
  induction cs with
  | nil => simp
  | cons c cs ih =>
    have hc : 1 ≤ (escape c).length := by
      unfold escape; repeat' split
      all_goals simp
    simp only [List.flatMap_cons, List.length_append, List.length_cons]
    omega

/-- A text with its quotes. -/
theorem readText_textChars {s : String} {fuel : Nat} (hf : (textChars s).length < fuel + 2)
    (rest : List Char) :
    readText fuel (s.toList.flatMap escape ++ '"' :: rest) = some (s.toList, rest) := by
  refine readText_escaped ?_ rest
  have hle := length_le_escaped s.toList
  simp only [textChars, List.length_cons, List.length_append, List.length_nil] at hf
  omega

/-! ## Values -/

/-- Values that writing and reading leaves as they are. -/
inductive Stable : Json → Prop
  | null : Stable .null
  | bool (b : Bool) : Stable (.bool b)
  | number {n : Number} (finite : n.isFinite = true) : Stable (.number n)
  | text (s : String) : Stable (.text s)
  | array {items : List Json} (items_stable : ∀ v ∈ items, Stable v) : Stable (.array items)
  | object {members : List (String × Json)} (ordered : ofMembers members = .object members)
      (members_stable : ∀ m ∈ members, Stable m.2) : Stable (.object members)

theorem skipSpace_cons {c : Char} (hc : isSpace c = false) (cs : List Char) :
    skipSpace (c :: cs) = c :: cs := by
  rw [skipSpace, List.dropWhile_cons_of_neg (by simp [hc])]

theorem isSpace_of_isDigit {c : Char} (hc : c.isDigit = true) : isSpace c = false := by
  cases h : isSpace c with
  | false => rfl
  | true =>
    simp only [isSpace, Bool.or_eq_true, decide_eq_true_eq] at h
    rcases h with ((rfl | rfl) | rfl) | rfl <;> simp at hc

/-- What a value begins with is neither white space nor the end of an array or object. -/
theorem compactChars_head {v : Json} (h : v.Stable) :
    ∃ c cs, v.compactChars = c :: cs ∧ isSpace c = false ∧ c ≠ ']' ∧ c ≠ '\x7d' := by
  cases h with
  | null => exact ⟨'n', _, rfl, rfl, by decide, by decide⟩
  | bool b =>
    cases b
    · exact ⟨'f', _, rfl, rfl, by decide, by decide⟩
    · exact ⟨'t', _, rfl, rfl, by decide, by decide⟩
  | text s => exact ⟨'"', _, rfl, rfl, by decide, by decide⟩
  | array => exact ⟨'[', _, rfl, rfl, by decide, by decide⟩
  | object => exact ⟨'\x7b', _, rfl, rfl, by decide, by decide⟩
  | @number n hn =>
    obtain ⟨c, cs, e, hc⟩ := chars_head hn
    refine ⟨c, cs, by rw [compactChars, numberChars, if_pos hn, e], ?_⟩
    rcases hc with hc | rfl
    · refine ⟨isSpace_of_isDigit hc, ?_, ?_⟩ <;> (rintro rfl; simp at hc)
    · exact ⟨rfl, by decide, by decide⟩

/-- The reader of a value, by the first character. -/
theorem readValue_number {c : Char} (hc : c.isDigit = true ∨ c = '-') (fuel : Nat)
    (cs : List Char) :
    readValue (fuel + 1) (c :: cs) = (readNumber (c :: cs)).map fun (n, r) => (.number n, r) := by
  rw [readValue]
  all_goals
    intro _ e
    rw [(List.cons.inj e).1] at hc
    exact absurd hc (by decide)

theorem skipSpace_compactChars {v : Json} (h : v.Stable) (rest : List Char) :
    skipSpace (v.compactChars ++ rest) = v.compactChars ++ rest := by
  obtain ⟨c, cs, e, hc, -, -⟩ := compactChars_head h
  rw [e, List.cons_append, skipSpace_cons hc]

/-- The value is read from its text with enough fuel. -/
def Reads (v : Json) : Prop :=
  ∀ fuel rest, v.compactChars.length < fuel → EndsNumeral rest →
    readValue fuel (v.compactChars ++ rest) = some (v, rest)

theorem endsNumeral_cons {c : Char} (hc : c = ',' ∨ c = ']' ∨ c = '\x7d') (cs : List Char) :
    EndsNumeral (c :: cs) := by
  intro x hx
  obtain rfl : c = x := by simpa using hx
  rcases hc with rfl | rfl | rfl <;> decide

theorem compactItems_cons_cons (v w : Json) (items : List Json) :
    compactItems (v :: w :: items) = v.compactChars ++ ',' :: compactItems (w :: items) := rfl

theorem compactItems_head (v : Json) (items : List Json) (h : v.Stable) :
    ∃ c cs, compactItems (v :: items) = c :: cs ∧ isSpace c = false ∧ c ≠ ']' ∧ c ≠ '\x7d' := by
  obtain ⟨c, cs, e, hc⟩ := compactChars_head h
  cases items with
  | nil => exact ⟨c, cs, by rw [compactItems, e], hc⟩
  | cons w items => exact ⟨c, _, by rw [compactItems_cons_cons, e, List.cons_append], hc⟩

theorem readItems_compactItems {items : List Json} (hne : items ≠ [])
    (hs : ∀ v ∈ items, v.Stable) (hr : ∀ v ∈ items, v.Reads) (fuel : Nat)
    (hf : (compactItems items).length + 1 < fuel) (rest : List Char) :
    readItems fuel (compactItems items ++ ']' :: rest) = some (items, rest) := by
  induction items generalizing fuel with
  | nil => exact absurd rfl hne
  | cons v items ih =>
    obtain ⟨n, rfl⟩ : ∃ n, fuel = n + 1 := ⟨fuel - 1, by omega⟩
    cases items with
    | nil =>
      rw [compactItems] at hf ⊢
      rw [readItems, hr v (by simp) n _ (by omega) (endsNumeral_cons (by simp) _)]
      simp only [skipSpace_cons (c := ']') rfl]
    | cons w items =>
      obtain ⟨c, cs, e, hc, -⟩ := compactItems_head w items (hs w (by simp))
      rw [compactItems_cons_cons] at hf ⊢
      simp only [List.length_append, List.length_cons] at hf
      have hrest := ih (List.cons_ne_nil _ _) (fun x hx => hs x (List.mem_cons_of_mem _ hx))
        (fun x hx => hr x (List.mem_cons_of_mem _ hx)) n (by omega)
      rw [List.append_assoc, List.cons_append, readItems,
        hr v (by simp) n _ (by omega) (endsNumeral_cons (by simp) _)]
      simp only [skipSpace_cons (c := ',') rfl]
      rw [e, List.cons_append] at hrest ⊢
      rw [skipSpace_cons hc, hrest]
      rfl

section

variable {key : String} {v : Json} (hs : v.Stable) (hr : v.Reads) {n : Nat}
  (hf : (textChars key).length + v.compactChars.length < n)

include hf in
theorem readText_key (rest : List Char) :
    readText n (key.toList.flatMap escape ++ '"' :: rest) = some (key.toList, rest) :=
  readText_textChars (by omega) rest

include hs hr hf

/-- The last member of an object. -/
theorem readMembers_last (rest : List Char) :
    readMembers (n + 1) (textChars key ++ ':' :: (v.compactChars ++ '\x7d' :: rest)) =
      some ([(key, v)], rest) := by
  simp only [textChars, List.cons_append, List.append_assoc, List.nil_append, readMembers,
    readText_key hf, skipSpace_cons (c := ':') rfl, skipSpace_compactChars hs,
    hr n _ (by omega) (endsNumeral_cons (c := '\x7d') (by simp) _),
    skipSpace_cons (c := '\x7d') rfl, String.ofList_toList]

/-- A member with others after it. -/
theorem readMembers_more (more : List Char) :
    readMembers (n + 1) (textChars key ++ ':' :: (v.compactChars ++ ',' :: more)) =
      (readMembers n (skipSpace more)).map fun (ms, r) => ((key, v) :: ms, r) := by
  simp only [textChars, List.cons_append, List.append_assoc, List.nil_append, readMembers,
    readText_key hf, skipSpace_cons (c := ':') rfl, skipSpace_compactChars hs,
    hr n _ (by omega) (endsNumeral_cons (c := ',') (by simp) _),
    skipSpace_cons (c := ',') rfl, String.ofList_toList]

end

theorem compactMembers_cons_cons (key : String) (v : Json) (m : String × Json)
    (members : List (String × Json)) :
    compactMembers ((key, v) :: m :: members) =
      textChars key ++ ':' :: v.compactChars ++ ',' :: compactMembers (m :: members) := rfl

theorem compactMembers_head (m : String × Json) (members : List (String × Json)) :
    ∃ tail, compactMembers (m :: members) = '"' :: tail := by
  obtain ⟨key, v⟩ := m
  cases members with
  | nil => exact ⟨_, rfl⟩
  | cons m' members => exact ⟨_, rfl⟩

theorem readMembers_compactMembers {members : List (String × Json)} (hne : members ≠ [])
    (hs : ∀ m ∈ members, m.2.Stable) (hr : ∀ m ∈ members, m.2.Reads) (fuel : Nat)
    (hf : (compactMembers members).length + 1 < fuel) (rest : List Char) :
    readMembers fuel (compactMembers members ++ '\x7d' :: rest) = some (members, rest) := by
  induction members generalizing fuel with
  | nil => exact absurd rfl hne
  | cons m members ih =>
    obtain ⟨key, v⟩ := m
    obtain ⟨n, rfl⟩ : ∃ n, fuel = n + 1 := ⟨fuel - 1, by omega⟩
    have hsv : v.Stable := hs (key, v) (by simp)
    have hrv : v.Reads := hr (key, v) (by simp)
    cases members with
    | nil =>
      rw [compactMembers] at hf ⊢
      simp only [List.length_append, List.length_cons] at hf
      rw [List.append_assoc, List.cons_append, readMembers_last hsv hrv (by omega)]
    | cons m' members =>
      rw [compactMembers_cons_cons] at hf ⊢
      simp only [List.length_append, List.length_cons] at hf
      have hrest := ih (List.cons_ne_nil _ _) (fun x hx => hs x (List.mem_cons_of_mem _ hx))
        (fun x hx => hr x (List.mem_cons_of_mem _ hx)) n (by omega)
      obtain ⟨tail, htail⟩ := compactMembers_head m' members
      rw [htail, List.cons_append] at hrest
      rw [htail, List.append_assoc, List.append_assoc, List.cons_append, List.cons_append,
        List.cons_append, readMembers_more hsv hrv (by omega), skipSpace_cons rfl, hrest]
      rfl

/-- An array that is not empty. -/
theorem readValue_array {c : Char} (hspace : isSpace c = false) (hc : c ≠ ']') (fuel : Nat)
    (cs : List Char) :
    readValue (fuel + 1) ('[' :: c :: cs) =
      (readItems fuel (c :: cs)).map fun (items, r) => (.array items, r) := by
  simp only [readValue, skipSpace_cons hspace]
  split
  · next e => exact absurd (List.cons.inj e).1 hc
  · rfl

/-- An object that is not empty. -/
theorem readValue_object {c : Char} (hspace : isSpace c = false) (hc : c ≠ '\x7d') (fuel : Nat)
    (cs : List Char) :
    readValue (fuel + 1) ('\x7b' :: c :: cs) =
      (readMembers fuel (c :: cs)).map fun (members, r) => (.ofMembers members, r) := by
  simp only [readValue, skipSpace_cons hspace]
  split
  · next e => exact absurd (List.cons.inj e).1 hc
  · rfl

/-- A text leaves at least one unit of the fuel that covers it, which the first step takes. -/
theorem Reads.of_step {v : Json} (h : ∀ k rest, v.compactChars.length ≤ k → EndsNumeral rest →
    readValue (k + 1) (v.compactChars ++ rest) = some (v, rest)) : v.Reads := by
  intro fuel rest hf hr
  cases fuel with
  | zero => omega
  | succ k => exact h k rest (by omega) hr

/-- Every stable value is read from its compact text. -/
theorem Stable.reads {v : Json} (h : v.Stable) : v.Reads := by
  induction h with
  | null => exact .of_step fun _ _ _ _ => rfl
  | bool b => exact .of_step fun _ _ _ _ => by cases b <;> rfl
  | @number n hn =>
    refine .of_step fun k rest _ hr => ?_
    obtain ⟨c, cs, e, hc⟩ := chars_head hn
    have hread := readNumber_chars hn hr
    rw [compactChars, numberChars, if_pos hn]
    rw [e, List.cons_append] at hread ⊢
    rw [readValue_number hc, hread]
    rfl
  | text s =>
    refine .of_step fun k rest hf _ => ?_
    rw [compactChars] at hf ⊢
    simp only [textChars, List.cons_append, List.append_assoc, List.nil_append, readValue,
      readText_textChars (show (textChars s).length < k + 2 by omega), Option.map_some,
      String.ofList_toList]
  | @array items hs ih =>
    refine .of_step fun k rest hf _ => ?_
    rw [compactChars] at hf ⊢
    rw [List.cons_append, List.cons_append, List.append_assoc, List.singleton_append]
    simp only [List.length_cons, List.length_append, List.length_nil] at hf
    cases items with
    | nil => rfl
    | cons v items =>
      have hread := readItems_compactItems (List.cons_ne_nil v items) hs ih k (by omega) rest
      obtain ⟨c, cs, e, hspace, hc, -⟩ := compactItems_head v items (hs v (by simp))
      rw [e, List.cons_append] at hread ⊢
      rw [readValue_array hspace hc, hread]
      rfl
  | @object members ho hs ih =>
    refine .of_step fun k rest hf _ => ?_
    rw [compactChars] at hf ⊢
    rw [List.cons_append, List.cons_append, List.append_assoc, List.singleton_append]
    simp only [List.length_cons, List.length_append, List.length_nil] at hf
    cases members with
    | nil => rfl
    | cons m members =>
      have hread := readMembers_compactMembers (List.cons_ne_nil m members) hs ih k (by omega) rest
      obtain ⟨tail, e⟩ := compactMembers_head m members
      rw [e, List.cons_append] at hread ⊢
      rw [readValue_object rfl (by decide), hread, Option.map_some]
      -- the members stand in the order that reading leaves them in
      exact congrArg (fun o => some (o, rest)) ho

/-- The compact text of a stable value is read as the value. -/
theorem parse?_compact {v : Json} (h : v.Stable) : parse? v.compact = some v := by
  have hskip := skipSpace_compactChars h []
  have hread := h.reads (v.compactChars.length + 1) [] (Nat.lt_succ_self _) (by simp [EndsNumeral])
  rw [List.append_nil] at hskip hread
  simp only [parse?, compact, String.toList_ofList, hskip, hread]
  rfl

end Coroutines.Json
