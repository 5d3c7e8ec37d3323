import Coroutines.Proofs.Format.Written
import Coroutines.Trace.Summary
import Mathlib.Data.List.TakeWhile
import Mathlib.Data.String.Basic

/-!
# Reading a written trace

The compact text of JSON data has no line feed, whatever the texts in it, so lines that are written one
after the other are found again as they were written (`Text.splitOn_join_lines`).  Each of them is
read as the line it was written from (`Summary.readLines_join`), but for a number that is not
finite: it is written as `null` (`TraceLine.legible`).
-/

namespace Coroutines

/-! ### Lines of a text -/

namespace Text

open String in
/-- What splitting at line feeds gives from the middle of a text on, with `m` behind the last line feed
so far. -/
theorem splitOnAux_newline (l m r : List Char) (acc : List String) :
    splitOnAux (ofList (l ++ m ++ r)) "\n" ⟨utf8Len l⟩ ⟨utf8Len l + utf8Len m⟩ 0 acc =
      acc.reverse ++ (List.splitOnPPrepend (· == '\n') r m.reverse).map ofList := by
  induction r generalizing l m acc with
  | nil =>
    have hend : Pos.Raw.atEnd (ofList (l ++ m ++ [])) ⟨utf8Len l + utf8Len m⟩ = true := by
      simp [-ofList_append, atEnd_iff]
    rw [splitOnAux.eq_1, if_pos hend, extract_of_valid]
    simp
  | cons c r ih =>
    have hend : ¬ Pos.Raw.atEnd (ofList (l ++ m ++ c :: r)) ⟨utf8Len l + utf8Len m⟩ = true := by
      have := Char.utf8Size_pos c
      simp [-ofList_append, atEnd_iff]
      omega
    have hget : Pos.Raw.get (ofList (l ++ m ++ c :: r)) ⟨utf8Len l + utf8Len m⟩ = c := by
      simpa [-ofList_append] using get_of_valid (l ++ m) (c :: r)
    have hnext : Pos.Raw.next (ofList (l ++ m ++ c :: r)) ⟨utf8Len l + utf8Len m⟩ =
        ⟨utf8Len l + utf8Len m + c.utf8Size⟩ := by
      simpa [-ofList_append] using next_of_valid (l ++ m) c r
    rw [splitOnAux.eq_1, if_neg hend, hget, hnext,
      show Pos.Raw.get "\n" 0 = '\n' from by decide, List.splitOnPPrepend_cons_eq_if]
    by_cases hc : (c == '\n') = true
    · -- a line ends here, and the next one begins
      have hsep : Pos.Raw.atEnd "\n" (Pos.Raw.next "\n" 0) = true := by decide
      obtain rfl := eq_of_beq hc
      have hback : (⟨utf8Len l + utf8Len m + '\n'.utf8Size⟩ : Pos.Raw).unoffsetBy
          (Pos.Raw.next "\n" 0) = ⟨utf8Len l + utf8Len m⟩ := rfl
      dsimp only
      rw [if_pos hc, if_pos hc, if_pos hsep, hback, extract_of_valid]
      have hrest := ih (l ++ m ++ ['\n']) [] (ofList m :: acc)
      simp only [List.append_assoc, List.append_nil, List.cons_append, List.nil_append,
        utf8Len_append, utf8Len_cons, utf8Len_nil, Nat.add_zero, Nat.zero_add, List.reverse_cons,
        List.reverse_nil] at hrest ⊢
      rw [← Nat.add_assoc] at hrest
      rw [hrest, List.splitOnP_eq_splitOnPPrepend, List.map_cons, List.reverse_reverse]
    · have hstay : (⟨utf8Len l + utf8Len m⟩ : Pos.Raw).unoffsetBy 0 = ⟨utf8Len l + utf8Len m⟩ := rfl
      rw [if_neg hc, if_neg hc, hstay, hnext]
      have hrest := ih l (m ++ [c]) acc
      simp only [List.append_assoc, List.cons_append, List.nil_append, utf8Len_append, utf8Len_cons,
        utf8Len_nil, Nat.zero_add, List.reverse_append, List.reverse_cons, List.reverse_nil]
        at hrest ⊢
      rw [← Nat.add_assoc] at hrest
      exact hrest

theorem splitOn_newline (s : String) :
    s.splitOn "\n" = (s.toList.splitOn '\n').map String.ofList := by
  have h := splitOnAux_newline [] [] s.toList []
  rw [List.append_nil, List.nil_append, String.ofList_toList] at h
  rw [List.splitOn_eq_splitOnP, List.splitOnP_eq_splitOnPPrepend]
  exact h

/-- Lines that are written one after the other, and the empty rest behind the last line feed. -/
theorem splitOn_join_lines {lines : List String} (h : ∀ l ∈ lines, '\n' ∉ l.toList) :
    (String.join (lines.map (· ++ "\n"))).splitOn "\n" = lines ++ [""] := by
  induction lines with
  | nil =>
    rw [splitOn_newline]
    rfl
  | cons l lines ih =>
    have hl : ∀ c ∈ l.toList, (c == '\n') = false := by
      intro c hc
      exact beq_eq_false_iff_ne.mpr fun e => h l (List.mem_cons_self ..) (e ▸ hc)
    have hrest := ih fun l' hl' => h l' (List.mem_cons_of_mem _ hl')
    rw [splitOn_newline, List.splitOn_eq_splitOnP] at hrest ⊢
    rw [List.map_cons, String.join_cons, String.toList_append, String.toList_append,
      List.append_assoc, show "\n".toList = ['\n'] from rfl, List.singleton_append,
      List.splitOnP_append_cons_of_forall_mem hl '\n' rfl, List.map_cons, String.ofList_toList, hrest]
    rfl

/-- What begins with a character that is not white space is not blank. -/
theorem isEmpty_trim_cons {c : Char} (hc : isBlank c = false) (cs : List Char) :
    (trim (c :: cs)).isEmpty = false := by
  have hstart : trimStart (c :: cs) = c :: cs := List.dropWhile_cons_of_neg (by rw [hc]; decide)
  rw [trim, hstart, trimEnd, List.isEmpty_reverse, ← Bool.not_eq_true, List.isEmpty_iff,
    List.dropWhile_eq_nil_iff]
  intro hall
  have := hall c (List.mem_reverse.mpr (List.mem_cons_self ..))
  rw [hc] at this
  cases this

end Text

/-! ### Lines of JSON -/

namespace Decimal

theorem newline_not_mem_layout (d : Decimal) : '\n' ∉ d.layout := by
  have hdigits : ∀ n, '\n' ∉ Nat.toDigits 10 n := fun n h =>
    absurd (isDigit_of_mem_toDigits h) (by decide)
  have htake : ∀ n k, '\n' ∉ (Nat.toDigits 10 n).take k := fun n k h =>
    hdigits n (List.mem_of_mem_take h)
  have hdrop : ∀ n k, '\n' ∉ (Nat.toDigits 10 n).drop k := fun n k h =>
    hdigits n (List.mem_of_mem_drop h)
  have hpower : ∀ (p : Int) (cs : List Char), '\n' ∉ cs →
      '\n' ∉ cs ++ 'e' :: (if p < 0 then '-' else '+') :: Nat.toDigits 10 p.natAbs := by
    intro p cs hcs
    split <;> simp [hcs, hdigits]
  have hd := hdigits d.digits
  unfold layout
  dsimp only
  split
  · simp [hd]
  split
  · simp [htake, hdrop]
  split
  · simp [hd]
  · refine hpower _ _ ?_
    split
    · exact List.not_mem_nil
    · next c e => rwa [e] at hd
    · next c rest _ e =>
      rw [e] at hd
      simp only [List.mem_cons, not_or] at hd ⊢
      exact ⟨hd.1, by decide, hd.2⟩

end Decimal

namespace Json

theorem newline_not_mem_numberChars (n : Number) : '\n' ∉ numberChars n := by
  unfold numberChars
  split
  · next h =>
    cases n with
    | nan => cases h
    | infinite negative => cases h
    | finite units h =>
      rw [chars_finite]
      split
      · decide
      split
      · exact List.not_mem_cons_of_ne_of_not_mem (by decide) (Decimal.newline_not_mem_layout _)
      · exact Decimal.newline_not_mem_layout _
  · decide

theorem newline_not_mem_escape (c : Char) : '\n' ∉ escape c := by
  have hhex : ∀ n < 32, '\n' ≠ hexDigit (n / 16) ∧ '\n' ≠ hexDigit (n % 16) := by decide
  unfold escape
  repeat' split
  any_goals decide
  · next h =>
    obtain ⟨hhigh, hlow⟩ := hhex c.toNat h
    simp [hhigh, hlow]
  · next hnewline _ _ _ =>
    exact List.not_mem_cons_of_ne_of_not_mem (Ne.symm hnewline) List.not_mem_nil

theorem compactChars_object (members : List (String × Json)) :
    (object members).compactChars = '\x7b' :: (compactMembers members ++ ['\x7d']) := by
  rw [compactChars, List.cons_append]

theorem newline_not_mem_textChars (s : String) : '\n' ∉ textChars s := by
  simp [textChars, newline_not_mem_escape]

mutual

/-- Compact JSON data stands on one line. -/
theorem newline_not_mem_compactChars : (v : Json) → '\n' ∉ v.compactChars
  | .null => by decide
  | .bool b => by cases b <;> decide
  | .number n => newline_not_mem_numberChars n
  | .text s => newline_not_mem_textChars s
  | .array items => by simp [compactChars, newline_not_mem_compactItems items]
  | .object members => by simp [compactChars, newline_not_mem_compactMembers members]

theorem newline_not_mem_compactItems : (items : List Json) → '\n' ∉ compactItems items
  | [] => List.not_mem_nil
  | [v] => newline_not_mem_compactChars v
  | v :: w :: rest => by
    simp [compactItems_cons_cons, newline_not_mem_compactChars v,
      newline_not_mem_compactItems (w :: rest)]

theorem newline_not_mem_compactMembers : (members : List (String × Json)) →
    '\n' ∉ compactMembers members
  | [] => List.not_mem_nil
  | [(key, v)] => by
    simp [compactMembers, newline_not_mem_textChars, newline_not_mem_compactChars v]
  | (key, v) :: m :: rest => by
    simp [compactMembers_cons_cons, newline_not_mem_textChars, newline_not_mem_compactChars v,
      newline_not_mem_compactMembers (m :: rest)]

end

end Json

/-! ### Lines of a trace -/

namespace Literal

/-- What is read where a value was written: a number that is not finite is written as `null`. -/
def legible : Literal → Literal
  | .number n => if n.isFinite then .number n else .none
  | v => v

theorem literal?_json (v : Literal) : UnitFile.literal? v.json = some v := by
  cases v <;> rfl

theorem stable_legible (v : Literal) : v.legible.json.Stable := by
  cases v with
  | number n =>
    by_cases h : n.isFinite = true
    · simp only [legible, if_pos h]
      exact .number h
    · simp only [legible, if_neg h]
      exact .null
  | none => exact .null
  | bool b => exact .bool b
  | text s => exact .text s

theorem compactChars_legible (v : Literal) : v.legible.json.compactChars = v.json.compactChars := by
  cases v with
  | number n =>
    by_cases h : n.isFinite = true
    · simp only [legible, if_pos h]
    · simp only [legible, if_neg h]
      exact (if_neg h).symm
  | _ => rfl

end Literal

namespace TraceLine

/-- The line that is read where a line was written. -/
def legible (l : TraceLine) : TraceLine :=
  { l with data := l.data.map fun data => data.map fun p => (p.1, p.2.legible) }

/-- The data has no key twice, and none that is an index. -/
def WellKeyed (l : TraceLine) : Prop :=
  ∀ data ∈ l.data, (data.map Prod.fst).Nodup ∧ ∀ p ∈ data, Bindings.index? p.1 = none

theorem compactMembers_legible (data : Bindings Literal) :
    Json.compactMembers (data.map fun p => (p.1, p.2.legible.json)) =
      Json.compactMembers (data.map fun p => (p.1, p.2.json)) := by
  induction data with
  | nil => rfl
  | cons p data ih =>
    cases data with
    | nil => simp only [List.map_cons, List.map_nil, Json.compactMembers, p.2.compactChars_legible]
    | cons p' data =>
      simp only [List.map_cons, Json.compactMembers_cons_cons, p.2.compactChars_legible] at ih ⊢
      rw [ih]

theorem compact_legible (l : TraceLine) : l.legible.json.compact = l.json.compact := by
  obtain ⟨time, runId, event, data⟩ := l
  cases data with
  | none => rfl
  | some data =>
    have h := compactMembers_legible data
    simp only [legible, json, Json.compact, Json.member?, dataJson, Option.map_some, List.map_map,
      Option.toList_some, List.cons_append, List.nil_append, Json.compactChars,
      Json.compactMembers, Function.comp_def] at h ⊢
    rw [h]

/-- An object whose keys are different and no indices keeps their order. -/
theorem stable_object {members : List (String × Json)} (hn : (members.map Prod.fst).Nodup)
    (hk : ∀ key ∈ members.map Prod.fst, Bindings.index? key = none) (hs : ∀ m ∈ members, m.2.Stable) :
    (Json.object members).Stable := by
  have hnames : ∀ m ∈ members, Bindings.index? m.1 = none := fun m hm => hk m.1 (List.mem_map_of_mem hm)
  exact .object (by rw [Json.ofMembers, Bindings.ofList_of_nodup hn, Bindings.indexFirst_of_names hnames])
    hs

theorem stable_legible {l : TraceLine} (h : l.WellKeyed) : l.legible.json.Stable := by
  obtain ⟨time, runId, event, - | data⟩ := l
  · show (Json.object [("ts", .text time), ("runId", .text runId), ("event", .text event)]).Stable
    have hkeys : ∀ key ∈ ["ts", "runId", "event"], Bindings.index? key = none := by decide
    exact stable_object (by simp) hkeys (by simp [Json.Stable.text])
  · obtain ⟨hn, hk⟩ := h data rfl
    have hdata : (dataJson (data.map fun p => (p.1, p.2.legible))).Stable := by
      rw [dataJson, List.map_map]
      refine stable_object (by rwa [List.map_map]) ?_ ?_
      · intro key hkey
        rw [List.map_map] at hkey
        obtain ⟨p, hp, rfl⟩ := List.mem_map.mp hkey
        exact hk p hp
      · intro m hm
        obtain ⟨p, hp, rfl⟩ := List.mem_map.mp hm
        exact p.2.stable_legible
    show (Json.object [("ts", .text time), ("runId", .text runId), ("event", .text event),
      ("data", dataJson (data.map fun p => (p.1, p.2.legible)))]).Stable
    have hkeys : ∀ key ∈ ["ts", "runId", "event", "data"], Bindings.index? key = none := by decide
    exact stable_object (by simp) hkeys (by simp [Json.Stable.text, hdata])

theorem data?_dataJson (data : Bindings Literal) : data? (dataJson data) = some data := by
  simp only [dataJson, data?]
  induction data with
  | nil => rfl
  | cons p data ih =>
    rw [List.map_cons, List.mapM_cons, Literal.literal?_json, ih]
    rfl

theorem ofJson?_json (l : TraceLine) : ofJson? l.json = some l := by
  obtain ⟨time, runId, event, data⟩ := l
  cases data with
  | none => rfl
  | some data =>
    have hdata : (json ⟨time, runId, event, some data⟩).optional? "data" data? = some (some data) := by
      show (data? (dataJson data)).map some = _
      rw [data?_dataJson]
      rfl
    show ((json ⟨time, runId, event, some data⟩).optional? "data" data?).bind
      (fun data => (some ⟨time, runId, event, data⟩ : Option TraceLine)) = _
    rw [hdata]
    rfl

/-- A line is read as it was written. -/
theorem parse?_compact {l : TraceLine} (h : l.WellKeyed) :
    (Json.parse? l.json.compact).bind ofJson? = some l.legible := by
  rw [← compact_legible, Json.parse?_compact (stable_legible h)]
  exact ofJson?_json _

end TraceLine

/-- **Lines that are written one after the other are read one after the other**, none is skipped, and
each is the line that was written. -/
theorem Summary.readLines_join {lines : List TraceLine} (h : ∀ l ∈ lines, l.WellKeyed) :
    readLines (String.join (lines.map (·.json.compact ++ "\n"))) =
      lines.map fun l => some l.legible := by
  have hsplit : (String.join (lines.map (·.json.compact ++ "\n"))).splitOn "\n" =
      lines.map (·.json.compact) ++ [""] := by
    have hnewline : ∀ t ∈ lines.map (·.json.compact), '\n' ∉ t.toList := by
      intro t ht
      obtain ⟨l, -, rfl⟩ := List.mem_map.mp ht
      rw [Json.compact, String.toList_ofList]
      exact Json.newline_not_mem_compactChars _
    have := Text.splitOn_join_lines hnewline
    rwa [List.map_map] at this
  have hbrace : Text.isBlank '\x7b' = false := by decide
  have hkept : (lines.map (·.json.compact) ++ [""]).filter
      (fun t => !(Text.trim t.toList).isEmpty) = lines.map (·.json.compact) := by
    rw [List.filter_append, List.filter_eq_self.mpr, List.filter_eq_nil_iff.mpr, List.append_nil]
    · intro t ht
      rw [List.mem_singleton.mp ht]
      decide
    · intro t ht
      obtain ⟨l, -, rfl⟩ := List.mem_map.mp ht
      rw [Json.compact, String.toList_ofList, TraceLine.json, Json.compactChars_object,
        Text.isEmpty_trim_cons hbrace]
      rfl
  rw [readLines, hsplit, hkept, List.map_map]
  refine List.map_congr_left fun l hl => ?_
  rw [Function.comp_apply, TraceLine.parse?_compact (h l hl)]

end Coroutines
