import Coroutines.Text

/-!
# Lengths of texts

The length of texts that are joined adds up, so a text with a part beyond the greatest length is beyond it too,
and texts that are built one by one can be joined exactly if all of them together are not too long.
-/

namespace Coroutines

namespace Text

theorem width_cons (c : Char) (cs : List Char) :
    width (c :: cs) = (if c.toNat < 0x10000 then 1 else 2) + width cs := by
  have hfold : ∀ (cs : List Char) (n : Nat),
      cs.foldl (fun n c => if c.toNat < 0x10000 then n + 1 else n + 2) n = n + width cs := by
    intro cs
    induction cs with
    | nil => exact fun n => rfl
    | cons c rest ih =>
        intro n
        rw [width, List.foldl_cons, List.foldl_cons, ih, ih]
        split <;> omega
  rw [width, List.foldl_cons, hfold]

theorem length_le_width (cs : List Char) : cs.length ≤ width cs := by
  induction cs with
  | nil => exact Nat.zero_le _
  | cons c rest ih =>
      rw [width_cons, List.length_cons]
      split <;> omega

theorem width_le_length (cs : List Char) : width cs ≤ 2 * cs.length := by
  induction cs with
  | nil => exact Nat.zero_le _
  | cons c rest ih =>
      rw [width_cons, List.length_cons]
      split <;> omega

theorem width_append (cs ds : List Char) : width (cs ++ ds) = width cs + width ds := by
  induction cs with
  | nil => exact (Nat.zero_add _).symm
  | cons c rest ih => rw [List.cons_append, width_cons, width_cons, ih, Nat.add_assoc]

theorem width_replicate {c : Char} (hc : c.toNat < 0x10000) (n : Nat) : width (List.replicate n c) = n := by
  induction n with
  | zero => rfl
  | succ n ih => rw [List.replicate_succ, width_cons, ih, if_pos hc, Nat.add_comm]

/-- No character takes more units than bytes. -/
theorem width_le_utf8ByteSize (cs : List Char) : width cs ≤ (String.ofList cs).utf8ByteSize := by
  induction cs with
  | nil => exact Nat.le_refl 0
  | cons c rest ih =>
      have hc : (if c.toNat < 0x10000 then 1 else 2) ≤ c.utf8Size := by
        have hpos := c.utf8Size_pos
        split
        · exact hpos
        · next hlarge =>
            have hone : c.utf8Size ≠ 1 := fun h =>
              hlarge (Nat.lt_of_le_of_lt (Char.utf8Size_eq_one_iff.mp h) (by decide))
            omega
      rw [width_cons, String.ofList_cons, String.utf8ByteSize_append, String.utf8ByteSize_singleton]
      exact Nat.add_le_add hc ih

/-- The units of a text may be counted one character at a time. -/
theorem length_eq_width (s : String) : length s = width s.toList := by
  unfold length
  split
  · next hbytes =>
      have hle := width_le_utf8ByteSize s.toList
      rw [String.ofList_toList, hbytes] at hle
      exact Nat.le_antisymm (length_le_width s.toList) hle
  · rfl

theorem length_ofList (cs : List Char) : length (String.ofList cs) = width cs := by
  rw [length_eq_width, String.toList_ofList]

theorem length_append (a b : String) : length (a ++ b) = length a + length b := by
  simp only [length_eq_width, String.toList_append, width_append]

theorem length_intercalate (sep : String) (parts : List String) :
    length (sep.intercalate parts) = joinedLength sep parts := by
  induction parts with
  | nil => exact length_eq_width ""
  | cons s rest ih =>
      cases rest with
      | nil => exact congrArg length String.intercalate_singleton
      | cons t rest => rw [String.intercalate_cons_cons, length_append, length_append, ih]; rfl

/-- Texts are not longer than what they are joined to. -/
theorem length_le_intercalate {sep s : String} {l : List String} (h : s ∈ l) :
    length s ≤ length (sep.intercalate l) := by
  induction l with
  | nil => cases h
  | cons t rest ih =>
      cases rest with
      | nil =>
          obtain rfl := List.mem_singleton.mp h
          exact Nat.le_of_eq (congrArg length String.intercalate_singleton.symm)
      | cons u rest =>
          rw [String.intercalate_cons_cons, length_append, length_append]
          rcases List.mem_cons.mp h with rfl | h
          · omega
          · exact Nat.le_trans (ih h) (Nat.le_add_left ..)

/-- Texts are shorter than what they are joined to behind another one. -/
theorem length_lt_intercalate {sep s t : String} {l : List String} (hsep : 0 < length sep) (h : s ∈ l) :
    length s < length (sep.intercalate (t :: l)) := by
  have hle : length s ≤ length (sep.intercalate l) := length_le_intercalate h
  obtain ⟨u, rest, rfl⟩ := List.exists_cons_of_ne_nil (List.ne_nil_of_mem h)
  rw [String.intercalate_cons_cons, length_append, length_append]
  omega

@[simp] theorem bounded?_eq_none_iff {s : String} : bounded? s = none ↔ maxLength < length s := by
  unfold bounded?
  split <;> simp_all

theorem bounded?_eq_none {s : String} (h : maxLength < length s) : bounded? s = none := bounded?_eq_none_iff.mpr h

theorem bounded?_eq_some {s : String} (h : length s ≤ maxLength) : bounded? s = some s :=
  if_neg (Nat.not_lt.mpr h)

theorem join?_eq (sep : String) (parts : List String) : join? sep parts = bounded? (sep.intercalate parts) := by
  rw [join?, bounded?, length_intercalate]

/-- A text with a part beyond the greatest length is beyond it. -/
theorem bounded?_intercalate_eq_none {sep s : String} {l : List String} (hs : s ∈ l) (h : maxLength < length s) :
    bounded? (sep.intercalate l) = none :=
  bounded?_eq_none (Nat.lt_of_lt_of_le h (length_le_intercalate hs))

/-- Texts that are built one by one and joined make the joined text, unless that is too long. -/
theorem mapM_bounded? {α : Type} {sep : String} {f : α → String} {g : α → Option String} {l : List α}
    (hg : ∀ a ∈ l, g a = bounded? (f a)) :
    ((l.mapM g).bind fun parts => bounded? (sep.intercalate parts)) = bounded? (sep.intercalate (l.map f)) := by
  by_cases hall : ∀ a ∈ l, length (f a) ≤ maxLength
  · have hparts : l.mapM g = some (l.map f) := by
      induction l with
      | nil => rfl
      | cons a rest ih =>
          obtain ⟨ha, hrest⟩ := List.forall_mem_cons.mp hall
          obtain ⟨hga, hgrest⟩ := List.forall_mem_cons.mp hg
          rw [List.mapM_cons, hga, bounded?_eq_some ha, ih hgrest hrest]
          rfl
    rw [hparts]
    rfl
  · obtain ⟨a, ha, hlong⟩ : ∃ a ∈ l, maxLength < length (f a) := by simpa using hall
    have hnone : l.mapM g = none := by
      clear hall
      induction l with
      | nil => cases ha
      | cons b rest ih =>
          obtain ⟨hgb, hgrest⟩ := List.forall_mem_cons.mp hg
          rw [List.mapM_cons]
          rcases List.mem_cons.mp ha with rfl | ha
          · rw [hgb, bounded?_eq_none hlong]
            rfl
          · rw [ih hgrest ha]
            cases g b <;> rfl
    rw [hnone, bounded?_intercalate_eq_none (List.mem_map_of_mem ha) hlong]
    rfl

end Text

end Coroutines
