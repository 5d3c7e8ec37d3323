import Coroutines.Proofs.Defects.Occurrences
import Coroutines.Validation
import Mathlib.Data.Set.Card

/-!
# One diagnostic for each defect

Diagnostics match defects one to one (`OneEach`) when the defects can be listed, each once, with the codes of
the diagnostics.  The relation is closed under the ways in which the checks put diagnostics together, and it
says how many diagnostics of a kind there are (`OneEach.encard_eq`).
-/

namespace Coroutines

variable {ι κ α : Type} {ds es : List Diagnostic} {S T : DefectKind → ι → Prop}

/-- There is one diagnostic for each defect, with the code of its kind. -/
def OneEach (ds : List Diagnostic) (S : DefectKind → ι → Prop) : Prop :=
  ∃ l : List (DefectKind × ι), l.Nodup ∧ (∀ k p, (k, p) ∈ l ↔ S k p) ∧
    (ds.map Diagnostic.code).Perm (l.map (·.1.code))

namespace OneEach

theorem none (h : ∀ k p, ¬ S k p) : OneEach [] S :=
  ⟨[], .nil, fun k p => iff_of_false nofun (h k p), .refl _⟩

theorem single {d : Diagnostic} {k : DefectKind} {p : ι} (hcode : d.code = k.code)
    (h : ∀ k' p', S k' p' ↔ k' = k ∧ p' = p) : OneEach [d] S := by
  refine ⟨[(k, p)], List.nodup_singleton _, fun k' p' => ?_, ?_⟩
  · rw [List.mem_singleton, Prod.mk.injEq]
    exact (h k' p').symm
  · rw [List.map_singleton, List.map_singleton, hcode]

theorem ite {c : Prop} [Decidable c] {d : Diagnostic} {k : DefectKind} {p : ι} (hcode : d.code = k.code)
    (h : ∀ k' p', S k' p' ↔ c ∧ k' = k ∧ p' = p) : OneEach (if c then [d] else []) S := by
  split
  · next hc => exact single hcode fun k' p' => (h k' p').trans (and_iff_right hc)
  · next hc => exact none fun k' p' hS => hc ((h k' p').mp hS).1

theorem congr (h : OneEach ds S) (hST : ∀ k p, S k p ↔ T k p) : OneEach ds T := by
  obtain ⟨l, hnodup, hmem, hcodes⟩ := h
  exact ⟨l, hnodup, fun k p => (hmem k p).trans (hST k p), hcodes⟩

/-- The order of diagnostics is of no account. -/
theorem perm (h : OneEach ds S) (hds : es.Perm ds) : OneEach es S := by
  obtain ⟨l, hnodup, hmem, hcodes⟩ := h
  exact ⟨l, hnodup, hmem, (hds.map _).trans hcodes⟩

theorem append (hS : OneEach ds S) (hT : OneEach es T) (hdisjoint : ∀ k p, S k p → ¬ T k p) :
    OneEach (ds ++ es) (fun k p => S k p ∨ T k p) := by
  obtain ⟨l, hl, hlmem, hlcodes⟩ := hS
  obtain ⟨m, hm, hmmem, hmcodes⟩ := hT
  refine ⟨l ++ m, ?_, fun k p => ?_, ?_⟩
  · refine List.nodup_append.mpr ⟨hl, hm, ?_⟩
    rintro ⟨k, p⟩ hp _ hp' rfl
    exact hdisjoint k p ((hlmem k p).mp hp) ((hmmem k p).mp hp')
  · rw [List.mem_append, hlmem, hmmem]
  · rw [List.map_append, List.map_append]
    exact hlcodes.append hmcodes

/-- The defects of a part stand at places of the whole. -/
theorem embed (f : ι → κ) (hf : Function.Injective f) (h : OneEach ds S) :
    OneEach ds (fun k p => ∃ q, f q = p ∧ S k q) := by
  obtain ⟨l, hnodup, hmem, hcodes⟩ := h
  refine ⟨l.map (Prod.map id f), hnodup.map (Function.injective_id.prodMap hf), fun k p => ?_, ?_⟩
  · rw [List.mem_map]
    constructor
    · rintro ⟨⟨k', q⟩, hq, heq⟩
      cases heq
      exact ⟨q, rfl, (hmem _ q).mp hq⟩
    · rintro ⟨q, rfl, hq⟩
      exact ⟨(k, q), (hmem k q).mpr hq, rfl⟩
  · rw [List.map_map]
    exact hcodes

/-- The diagnostics of all items of a list, whose defects differ. -/
theorem flatMap {l : List α} {f : α → List Diagnostic} {S : Nat → α → DefectKind → ι → Prop}
    (h : ∀ i a, l[i]? = some a → OneEach (f a) (S i a))
    (hdisjoint : ∀ i j a b k p, S i a k p → S j b k p → i = j) :
    OneEach (l.flatMap f) (fun k p => ∃ i a, l[i]? = some a ∧ S i a k p) := by
  induction l generalizing S with
  | nil => exact none fun k p ⟨i, a, ha, _⟩ => by cases ha
  | cons a rest ih =>
      have hrest := @ih (fun i => S (i + 1)) (fun i => h (i + 1))
        fun i j a b k p hi hj => Nat.succ.inj (hdisjoint _ _ a b k p hi hj)
      refine ((h 0 a rfl).append hrest fun k p h0 ⟨i, b, _, hi⟩ => ?_).congr fun k p => ?_
      · cases hdisjoint _ _ a b k p h0 hi
      · constructor
        · rintro (h0 | ⟨i, b, hb, hi⟩)
          · exact ⟨0, a, rfl, h0⟩
          · exact ⟨i + 1, b, hb, hi⟩
        · rintro ⟨i, b, hb, hi⟩
          cases i with
          | zero => cases hb; exact .inl hi
          | succ i => exact .inr ⟨i, b, hb, hi⟩

/-- A report for each repetition of an earlier entry, or of a name that was seen before. -/
theorem repeated {report : String → Diagnostic} {kind : DefectKind} (hcode : ∀ n, (report n).code = kind.code)
    (seen names : List String) : OneEach (repeated report seen names) (fun k (i : Nat) =>
      k = kind ∧ ∃ n, names[i]? = some n ∧ (n ∈ seen ∨ ∃ j, j < i ∧ names[j]? = some n)) := by
  induction names generalizing seen with
  | nil => exact none fun k i ⟨_, n, hn, _⟩ => by cases hn
  | cons name rest ih =>
      have hfirst : OneEach (if seen.contains name then [report name] else [])
          (fun k (i : Nat) => name ∈ seen ∧ k = kind ∧ i = 0) :=
        ite (hcode name) fun k i => by rw [List.contains_iff_mem]
      have hrest := (ih (name :: seen)).embed (· + 1) fun _ _ => Nat.succ.inj
      refine (hfirst.append hrest fun k i h ⟨j, hj, _⟩ => Nat.succ_ne_zero j (hj.trans h.2.2)).congr
        fun k i => ?_
      cases i with
      | zero => simp [and_comm]
      | succ i =>
          have hearlier : ∀ n, (∃ j, j < i + 1 ∧ (name :: rest)[j]? = some n) ↔
              n = name ∨ ∃ j, j < i ∧ rest[j]? = some n := by
            intro n
            constructor
            · rintro ⟨j, hj, hn⟩
              cases j with
              | zero => exact .inl (Option.some.inj hn).symm
              | succ j => exact .inr ⟨j, Nat.lt_of_succ_lt_succ hj, hn⟩
            · rintro (rfl | ⟨j, hj, hn⟩)
              · exact ⟨0, Nat.succ_pos i, rfl⟩
              · exact ⟨j + 1, Nat.succ_lt_succ hj, hn⟩
          simp only [hearlier, List.getElem?_cons_succ, List.mem_cons, Nat.add_right_cancel_iff,
            exists_eq_left, Nat.succ_ne_zero, and_false, false_or, or_assoc, or_left_comm]

/-- A report for each repetition of an earlier entry. -/
theorem repeats {report : String → Diagnostic} {kind : DefectKind} (hcode : ∀ n, (report n).code = kind.code)
    (names : List String) :
    OneEach (Coroutines.repeated report [] names) (fun k i => k = kind ∧ Repeats names i) :=
  (repeated hcode [] names).congr fun k i => by simp [Repeats]

/-- There are as many diagnostics of a kind as places with a defect of that kind. -/
theorem encard_eq (h : OneEach ds S) (k : DefectKind) :
    {p | S k p}.encard = ds.countP (·.code = k.code) := by
  classical
  obtain ⟨l, hnodup, hmem, hcodes⟩ := h
  have hplaces : ((l.filter (·.1 = k)).map Prod.snd).Nodup := by
    refine (hnodup.filter _).map_on fun x hx y hy hxy => Prod.ext ?_ hxy
    have hx := (List.mem_filter.mp hx).2
    have hy := (List.mem_filter.mp hy).2
    exact (of_decide_eq_true hx).trans (of_decide_eq_true hy).symm
  have hset : {p | S k p} = (((l.filter (·.1 = k)).map Prod.snd).toFinset : Set ι) := by
    ext p
    simp [← hmem]
  have hcount : l.countP (·.1 = k) = ds.countP (·.code = k.code) := by
    have hl : l.countP (·.1 = k) = (l.map (·.1.code)).countP (· = k.code) := by
      rw [List.countP_map]
      exact List.countP_congr fun x _ => by simp [DefectKind.code_inj]
    rw [hl, ← hcodes.countP_eq, List.countP_map]
    rfl
  rw [hset, Set.encard_coe_eq_coe_finsetCard, List.toFinset_card_of_nodup hplaces, List.length_map,
    ← List.countP_eq_length_filter, hcount]

/-- Every diagnostic has the code of a kind of defect. -/
theorem exists_kind (h : OneEach ds S) {d : Diagnostic} (hd : d ∈ ds) : ∃ k p, S k p ∧ d.code = k.code := by
  obtain ⟨l, -, hmem, hcodes⟩ := h
  obtain ⟨⟨k, p⟩, hp, hcode⟩ := List.mem_map.mp (hcodes.subset (List.mem_map_of_mem hd))
  exact ⟨k, p, (hmem k p).mp hp, hcode.symm⟩

theorem eq_nil_iff (h : OneEach ds S) : ds = [] ↔ ∀ k p, ¬ S k p := by
  constructor
  · rintro rfl k p hp
    obtain ⟨l, -, hmem, hcodes⟩ := h
    have hnil : l = [] := List.map_eq_nil_iff.mp hcodes.symm.eq_nil
    exact absurd ((hmem k p).mpr hp) (hnil ▸ List.not_mem_nil)
  · intro hnone
    refine List.eq_nil_iff_forall_not_mem.mpr fun d hd => ?_
    obtain ⟨k, p, hp, -⟩ := h.exists_kind hd
    exact hnone k p hp

end OneEach

end Coroutines
