import Coroutines.Value.Text

/-!
# Quoted texts

A text in quotes is its mark, a body of escapes and the mark again.  The first mark that nothing escapes is the one
at the end, whatever follows (`Value.closing?_body`), the body is decoded from left to right
(`Value.decode?_body`), and there is no line feed and no tab in it (`Value.not_mem_quote`).
-/

namespace Coroutines

namespace Value

/-! ### Reading from left to right -/

/-- The place of the first mark that is not escaped by a backslash. -/
def closing? (mark : Char) : List Char → Option Nat
  | [] => Option.none
  | '\\' :: rest =>
    match rest with
    | [] => Option.none
    | _ :: rest => (closing? mark rest).map (· + 2)
  | c :: rest => if c = mark then some 0 else (closing? mark rest).map (· + 1)

/-- The character that a backslash before a letter stands for. -/
def unescape? : Char → Option Char
  | '\\' => some '\\'
  | 'n' => some '\n'
  | 't' => some '\t'
  | '\'' => some '\''
  | _ => Option.none

/-- The text that a body of escapes and other characters stands for. -/
def decode? : List Char → Option (List Char)
  | [] => some []
  | '\\' :: rest =>
    match rest with
    | [] => Option.none
    | c :: rest => (unescape? c).bind fun c => (decode? rest).map (c :: ·)
  | c :: rest => (decode? rest).map (c :: ·)

/-! ### Escapes -/

theorem decode?_escape (single : Bool) (c : Char) (rest : List Char) :
    decode? (escape single c ++ rest) = (decode? rest).map (c :: ·) := by
  unfold escape
  split
  · next h => subst h; rfl
  split
  · next h => subst h; rfl
  split
  · next h => subst h; rfl
  split
  · next h => obtain ⟨rfl, -⟩ := h; rfl
  · next hback _ _ _ =>
      rw [List.singleton_append, decode?]
      exact fun h => hback h

/-- Escapes are passed over, and so is every character but the mark. -/
theorem closing?_escape {mark : Char} {single : Bool} {c : Char}
    (hc : c = mark → c = '\'' ∧ single = true) (rest : List Char) :
    closing? mark (escape single c ++ rest) = (closing? mark rest).map (· + (escape single c).length) := by
  unfold escape
  split
  · rfl
  split
  · rfl
  split
  · rfl
  split
  · rfl
  · next hback _ _ hsingle =>
      have hne : c ≠ mark := fun h => hsingle (hc h)
      rw [List.singleton_append, closing?, if_neg hne]
      · rfl
      · exact fun h => hback h

theorem not_mem_escape {single : Bool} {c x : Char} (hx : x ∈ escape single c) : x ≠ '\n' ∧ x ≠ '\t' := by
  have hletters : ∀ y ∈ ['\\', 'n', 't', '\''], y ≠ '\n' ∧ y ≠ '\t' := by simp
  unfold escape at hx
  split at hx
  · exact hletters x (by simp at hx; simp [hx])
  split at hx
  · exact hletters x (by simp at hx; rcases hx with rfl | rfl <;> simp)
  split at hx
  · exact hletters x (by simp at hx; rcases hx with rfl | rfl <;> simp)
  split at hx
  · exact hletters x (by simp at hx; rcases hx with rfl | rfl <;> simp)
  · next hfeed htab _ =>
      obtain rfl := List.mem_singleton.mp hx
      exact ⟨hfeed, htab⟩

/-! ### Marks and bodies -/

/-- Whether a text is put in single quotes. -/
def inSingle (cs : List Char) : Bool := !(cs.contains '\'' && !cs.contains '"')

def quoteMark (cs : List Char) : Char := if inSingle cs then '\'' else '"'

def quoteBody (cs : List Char) : List Char := cs.flatMap (escape (inSingle cs))

variable {cs : List Char}

theorem quote_eq (cs : List Char) : quote cs = quoteMark cs :: (quoteBody cs ++ [quoteMark cs]) := by
  unfold quote quoteMark quoteBody inSingle
  cases cs.contains '\'' && !cs.contains '"' <;> rfl

theorem quoteMark_eq_or (cs : List Char) : quoteMark cs = '\'' ∨ quoteMark cs = '"' := by
  unfold quoteMark
  split
  · exact .inl rfl
  · exact .inr rfl

/-- The mark is in a text only where it is escaped: a text in double quotes has none of them. -/
theorem escapes_mark {c : Char} (hc : c ∈ cs) (h : c = quoteMark cs) : c = '\'' ∧ inSingle cs = true := by
  unfold quoteMark at h
  split at h
  · next hs => exact ⟨h, hs⟩
  · next hs =>
      subst h
      have hnone : '\'' ∈ cs ∧ '"' ∉ cs := by simpa [inSingle] using hs
      exact absurd hc hnone.2

theorem decode?_flatMap (single : Bool) (cs : List Char) : decode? (cs.flatMap (escape single)) = some cs := by
  induction cs with
  | nil => rfl
  | cons c cs ih => rw [List.flatMap_cons, decode?_escape, ih]; rfl

theorem decode?_body (cs : List Char) : decode? (quoteBody cs) = some cs := decode?_flatMap _ cs

theorem closing?_flatMap {mark : Char} {single : Bool} (h : ∀ c ∈ cs, c = mark → c = '\'' ∧ single = true)
    (hmark : mark ≠ '\\') (rest : List Char) :
    closing? mark (cs.flatMap (escape single) ++ mark :: rest) = some (cs.flatMap (escape single)).length := by
  induction cs with
  | nil =>
      rw [List.flatMap_nil, List.nil_append, closing?, if_pos rfl]
      · rfl
      · exact hmark
  | cons c cs ih =>
      obtain ⟨hc, hcs⟩ := List.forall_mem_cons.mp h
      rw [List.flatMap_cons, List.append_assoc, closing?_escape hc, ih hcs, List.length_append, Nat.add_comm]
      rfl

/-- The first mark that is not escaped stands behind the body. -/
theorem closing?_body (cs rest : List Char) :
    closing? (quoteMark cs) (quoteBody cs ++ quoteMark cs :: rest) = some (quoteBody cs).length := by
  refine closing?_flatMap (fun c hc => escapes_mark hc) ?_ rest
  rcases quoteMark_eq_or cs with h | h <;> rw [h] <;> decide

theorem not_mem_quote {x : Char} (hx : x ∈ quote cs) : x ≠ '\n' ∧ x ≠ '\t' := by
  have hmark : quoteMark cs ≠ '\n' ∧ quoteMark cs ≠ '\t' := by
    rcases quoteMark_eq_or cs with h | h <;> rw [h] <;> decide
  rw [quote_eq, List.mem_cons, List.mem_append, List.mem_singleton] at hx
  rcases hx with rfl | hx | rfl
  · exact hmark
  · obtain ⟨c, -, hx⟩ := List.mem_flatMap.mp hx
    exact not_mem_escape hx
  · exact hmark

/-- Quoted texts are told apart, whatever follows them. -/
theorem quote_append_inj {cs ds x y : List Char} (h : quote cs ++ x = quote ds ++ y) : cs = ds ∧ x = y := by
  rw [quote_eq, quote_eq, List.cons_append, List.cons_append, List.append_assoc, List.append_assoc,
    List.cons.injEq] at h
  obtain ⟨hmark, hbody⟩ := h
  -- equal texts have their closing mark in the same place, so they are cut in the same place
  have hplace := closing?_body cs x
  rw [← List.singleton_append, hbody, hmark, List.singleton_append, closing?_body] at hplace
  obtain ⟨hbody, hrest⟩ := List.append_inj hbody (Option.some.inj hplace).symm
  have hdecode := decode?_body cs
  rw [hbody, decode?_body] at hdecode
  exact ⟨(Option.some.inj hdecode).symm, (List.cons.inj hrest).2⟩

end Value

end Coroutines
