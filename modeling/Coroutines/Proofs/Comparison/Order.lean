import Coroutines.Number.Basic
import Coroutines.Text
import Mathlib.Data.List.Lex

/-!
# The order of numbers and of texts

Numbers other than `nan` stand in a strict linear order, and so do texts, by their code units: the code units of
a text determine it (`Text.units_injective`), as the first unit of a pair stands for no character of its own.
-/

namespace Coroutines

namespace Number

variable {a b c : Number}

theorem equals_iff : a.equals b = true ↔ a ≠ .nan ∧ a = b := by
  cases a <;> cases b <;> simp [equals]

theorem lt_trans (hab : a.lt b = true) (hbc : b.lt c = true) : a.lt c = true := by
  cases a <;> cases b <;> cases c <;> simp_all [lt]
  omega

/-- Two numbers are in exactly one of the three relations. -/
theorem count_relations (ha : a ≠ .nan) (hb : b ≠ .nan) :
    [a.lt b, a.equals b, b.lt a].count true = 1 := by
  cases a with
  | nan => exact absurd rfl ha
  | finite u _ =>
      cases b with
      | nan => exact absurd rfl hb
      | finite v _ =>
          rcases Int.lt_trichotomy u v with h | rfl | h
          · simp [lt, equals, h, Int.ne_of_lt h, Int.le_of_lt h]
          · simp [lt, equals]
          · simp [lt, equals, h, Int.ne_of_gt h, Int.le_of_lt h]
      | infinite t => cases t <;> rfl
  | infinite s =>
      cases b with
      | nan => exact absurd rfl hb
      | finite v _ => cases s <;> rfl
      | infinite t => cases s <;> cases t <;> rfl

end Number

namespace Text

/-! ### Code units -/

theorem unitsOfChar_ne_nil (c : Char) : unitsOfChar c ≠ [] := by
  unfold unitsOfChar
  split <;> simp

/-- A character is read off the units that begin with its own. -/
theorem unitsOfChar_append_inj {c d : Char} {as bs : List Nat}
    (h : unitsOfChar c ++ as = unitsOfChar d ++ bs) : c = d ∧ as = bs := by
  have hc : c.toNat < 0xD800 ∨ (0xDFFF < c.toNat ∧ c.toNat < 0x110000) := c.valid
  have hd : d.toNat < 0xD800 ∨ (0xDFFF < d.toNat ∧ d.toNat < 0x110000) := d.valid
  unfold unitsOfChar at h
  split at h <;> split at h <;> simp only [List.cons_append, List.nil_append, List.cons.injEq] at h
  · exact ⟨Char.toNat_inj.mp h.1, h.2⟩
  · omega
  · omega
  · exact ⟨Char.toNat_inj.mp (by omega), h.2.2⟩

theorem flatMap_unitsOfChar_injective {cs ds : List Char}
    (h : cs.flatMap unitsOfChar = ds.flatMap unitsOfChar) : cs = ds := by
  induction cs generalizing ds with
  | nil =>
      cases ds with
      | nil => rfl
      | cons d ds => simp [unitsOfChar_ne_nil] at h
  | cons c cs ih =>
      cases ds with
      | nil => simp [unitsOfChar_ne_nil] at h
      | cons d ds =>
          rw [List.flatMap_cons, List.flatMap_cons] at h
          obtain ⟨rfl, hrest⟩ := unitsOfChar_append_inj h
          rw [ih hrest]

theorem units_injective {a b : String} (h : units a = units b) : a = b :=
  String.toList_injective (flatMap_unitsOfChar_injective h)

/-! ### Dictionary order -/

theorem unitsLt_iff {as bs : List Nat} : unitsLt as bs = true ↔ as < bs := by
  induction as generalizing bs with
  | nil => cases bs <;> simp [unitsLt]
  | cons a as ih =>
      cases bs with
      | nil => simp [unitsLt]
      | cons b bs =>
          rw [unitsLt, List.cons_lt_cons_iff]
          split
          · next h => simp [ih, h]
          · next h => simp [h]

variable {a b c : String}

theorem lt_iff : lt a b = true ↔ units a < units b := unitsLt_iff

theorem lt_trans (hab : lt a b = true) (hbc : lt b c = true) : lt a c = true :=
  lt_iff.mpr (List.lt_trans (lt_iff.mp hab) (lt_iff.mp hbc))

/-- Two texts are in exactly one of the three relations. -/
theorem count_relations (a b : String) : [lt a b, decide (a = b), lt b a].count true = 1 := by
  have hab : lt a b = decide (units a < units b) := Bool.eq_iff_iff.mpr (by simp [lt_iff])
  have hba : lt b a = decide (units b < units a) := Bool.eq_iff_iff.mpr (by simp [lt_iff])
  rw [hab, hba]
  rcases lt_trichotomy (units a) (units b) with h | h | h
  · have hne : a ≠ b := fun e => h.ne (congrArg units e)
    simp [h, hne, h.not_gt]
  · obtain rfl := units_injective h
    simp
  · have hne : a ≠ b := fun e => h.ne (congrArg units e).symm
    simp [h, hne, h.not_gt]

end Text

end Coroutines
