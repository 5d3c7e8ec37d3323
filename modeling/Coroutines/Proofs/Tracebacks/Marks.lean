import Coroutines.Proofs.Comparison.Order
import Coroutines.Proofs.Defects.Rendering
import Coroutines.Proofs.Nearest
import Coroutines.Traceback
import Mathlib.Data.List.DropRight

/-!
# The marks of a traceback

The marks stand under the columns of the failing extent that the trimmed line shows, whatever the columns are
(`Record.traceback_marks`).  They are copies of a blank and of a wave, and the counts of copies are never
refused; so putting a traceback together fails only where the traceback is longer than any text
(`Record.render?_eq`).
-/

namespace Coroutines

/-! ### Numbers of columns -/

namespace Number

theorem zero_eq_ofInt : zero = ofInt 0 := rfl

theorem max_ofInt {i j : Int} (h : i.natAbs < maxExact ∨ j.natAbs < maxExact) :
    (ofInt i).max (ofInt j) = ofInt (Max.max i j) := by
  rw [Number.max, lt_ofInt h]
  by_cases hij : i < j
  · rw [decide_eq_true hij, if_pos rfl, Int.max_eq_right (Int.le_of_lt hij)]
  · rw [decide_eq_false hij, if_neg Bool.false_ne_true, Int.max_eq_left (Int.not_lt.mp hij)]

theorem min_ofInt {i j : Int} (h : i.natAbs < maxExact ∨ j.natAbs < maxExact) :
    (ofInt i).min (ofInt j) = ofInt (Min.min i j) := by
  rw [Number.min, lt_ofInt h.symm]
  by_cases hij : j < i
  · rw [decide_eq_true hij, if_pos rfl, Int.min_eq_right (Int.le_of_lt hij)]
  · rw [decide_eq_false hij, if_neg Bool.false_ne_true, Int.min_eq_left (Int.not_lt.mp hij)]

/-- The rounding of what lies below the exact numbers, or beyond them, does not show against each other. -/
theorem le_ofInt_of_nonneg {i j : Int} (hi : i < maxExact) (hj : 0 ≤ j) :
    (ofInt i).le (ofInt j) = decide (i ≤ j) := by
  by_cases hneg : i < 0
  · rw [decide_eq_true (by omega)]
    exact le_trans (ofInt_le (j := 0) (Nat.zero_le _) (Int.le_of_lt hneg)) (le_ofInt (Nat.zero_le _) hj)
  · have hlt := lt_eq_false_iff (ofInt_ne_nan j) (ofInt_ne_nan i)
    rw [lt_ofInt (.inr (by omega)), decide_eq_false_iff_not, Int.not_lt] at hlt
    rw [Bool.eq_iff_iff, ← hlt, decide_eq_true_eq]

/-- A whole number less one that is exact. -/
theorem sub_of_toInt? {n : Number} {i : Int} {k : Nat} (h : n.toInt? = some i) (hk : k ≤ maxExact) :
    n.sub (ofNat k) = ofInt (i - k) := by
  obtain ⟨hi, rfl⟩ := eq_finite_of_toInt? h
  rw [ofNat, ofInt_of_representable (representable_mul_one (i := k) (by omega)), sub_finite_mul_one]

end Number

/-! ### Copies -/

namespace Text

theorem append?_eq (a b : String) : append? a b = bounded? (a ++ b) := by
  rw [append?, bounded?, length_append]

/-- A text that is too long stays so with another one after it. -/
theorem bounded?_bind_append (a b : String) :
    ((bounded? a).bind fun a => append? a b) = bounded? (a ++ b) := by
  rcases Nat.lt_or_ge maxLength (length a) with hlong | hshort
  · have hlonger : maxLength < length (a ++ b) := by rw [length_append]; omega
    rw [bounded?_eq_none hlong, bounded?_eq_none hlonger]
    rfl
  · rw [bounded?_eq_some hshort, Option.bind_some, append?_eq]

theorem join_replicate (c : Char) (k : Nat) :
    String.join (List.replicate k (String.singleton c)) = String.ofList (List.replicate k c) := by
  rw [← String.toList_inj, String.toList_join, String.toList_ofList]
  induction k with
  | zero => rfl
  | succ k ih =>
      rw [List.replicate_succ, List.flatMap_cons, ih, String.toList_singleton]
      rfl

/-- A character over and over. -/
theorem copies?_singleton {c : Char} (hc : c.toNat < 0x10000) {count : Number} {k : Nat}
    (h : count.toInt? = some (k : Int)) (hk : k ≤ maxLength) :
    copies? (String.singleton c) count = some (String.ofList (List.replicate k c)) := by
  have hlength : length (String.singleton c) = 1 := by
    rw [length_eq_width, String.toList_singleton]
    exact width_replicate hc 1
  have hnonempty : (String.singleton c).isEmpty = false := by
    rw [Bool.eq_false_iff, Ne, String.isEmpty_iff]
    exact String.singleton_ne_empty
  rw [copies?, hnonempty, Diagnostic.copyCount?_of_whole h, if_neg Bool.false_ne_true,
    if_neg (Nat.not_lt.mpr hk)]
  simp only [hlength, join_replicate, Nat.one_mul, if_neg (Nat.not_lt.mpr hk)]

theorem width_trimEnd_le (cs : List Char) : width (trimEnd cs) ≤ width cs := by
  obtain ⟨rest, hrest⟩ : trimEnd cs <+: cs := List.rdropWhile_prefix isBlank cs
  rw [← hrest, width_append, hrest]
  exact Nat.le_add_right ..

end Text

/-! ### The line of marks -/

namespace SourceSite

variable {site : SourceSite}

/-- How many units of white space the source line begins with. -/
def leading (site : SourceSite) : Nat := Text.width (site.text.toList.takeWhile Text.isBlank)

/-- How many units of the source line are shown. -/
def shown (site : SourceSite) : Nat := Text.width (Text.trim site.text.toList)

theorem width_trimStart (site : SourceSite) :
    Text.width (Text.trimStart site.text.toList) + site.leading = Text.length site.text := by
  rw [Nat.add_comm, leading, Text.trimStart, ← Text.width_append, List.takeWhile_append_dropWhile,
    Text.length_eq_width]

theorem leading_add_shown_le (site : SourceSite) : site.leading + site.shown ≤ Text.length site.text := by
  have hsplit := site.width_trimStart
  have htrim : site.shown ≤ Text.width (Text.trimStart site.text.toList) := Text.width_trimEnd_le _
  omega

theorem width_sub_trimStart (site : SourceSite) :
    Text.width site.text.toList - Text.width (Text.trimStart site.text.toList) = site.leading :=
  Nat.sub_eq_of_eq_add <| by rw [← Text.length_eq_width, Nat.add_comm, site.width_trimStart]

theorem width_trim (site : SourceSite) : Text.width (Text.trim site.text.toList) = site.shown := rfl

/-- Where the extent begins and where it ends. -/
structure Extent (site : SourceSite) (first past : Int) : Prop where
  startColumn : site.startColumn.toInt? = some first
  endColumn : site.endColumn.toInt? = some past

/-- The first place of the shown line under which a mark stands, if there is one. -/
def firstMark (site : SourceSite) (first : Int) : Int := max (first - site.leading) 0

/-- The place after the last one under which a mark stands, if there is one. -/
def pastMark (site : SourceSite) (past : Int) : Int := min (past - site.leading) site.shown

variable {first past : Int}

theorem firstMark_eq (h : site.Extent first past) (htext : Text.length site.text ≤ Text.maxLength) :
    (site.startColumn.sub (.ofNat site.leading)).max .zero = .ofInt (site.firstMark first) := by
  have hlength := site.leading_add_shown_le
  have hexact : Text.maxLength < Number.maxExact := by decide
  rw [Number.sub_of_toInt? h.startColumn (by omega), Number.zero_eq_ofInt, Number.max_ofInt (.inr (by decide))]
  rfl

theorem pastMark_eq (h : site.Extent first past) (htext : Text.length site.text ≤ Text.maxLength) :
    (site.endColumn.sub (.ofNat site.leading)).min (.ofNat site.shown) = .ofInt (site.pastMark past) := by
  have hlength := site.leading_add_shown_le
  have hexact : Text.maxLength < Number.maxExact := by decide
  rw [Number.sub_of_toInt? h.endColumn (by omega), Number.ofNat, Number.min_ofInt (.inr (by omega))]
  rfl

theorem firstMark_nonneg (site : SourceSite) (first : Int) : 0 ≤ site.firstMark first := Int.le_max_right ..

theorem pastMark_le (site : SourceSite) (past : Int) : site.pastMark past ≤ site.shown := Int.min_le_right ..

theorem le_marks (htext : Text.length site.text ≤ Text.maxLength) (first past : Int) :
    (Number.ofInt (site.pastMark past)).le (.ofInt (site.firstMark first)) =
      decide (site.pastMark past ≤ site.firstMark first) := by
  have hlength := site.leading_add_shown_le
  have hexact : Text.maxLength < Number.maxExact := by decide
  have hpast := site.pastMark_le past
  exact Number.le_ofInt_of_nonneg (by omega) (site.firstMark_nonneg first)

/-- Where there are marks, their places are so few that they are counted exactly. -/
theorem counts_of_lt (htext : Text.length site.text ≤ Text.maxLength)
    (hlt : site.firstMark first < site.pastMark past) :
    (Number.ofInt (site.firstMark first)).toInt? = some ((site.firstMark first).toNat : Int) ∧
      ((Number.ofInt (site.pastMark past)).sub (.ofInt (site.firstMark first))).toInt? =
        some ((site.pastMark past - site.firstMark first).toNat : Int) := by
  have hlength := site.leading_add_shown_le
  have hexact : Text.maxLength < Number.maxExact := by decide
  have hfirst := site.firstMark_nonneg first
  have hpast := site.pastMark_le past
  have hpastExact : (Number.ofInt (site.pastMark past)).toInt? = some (site.pastMark past) :=
    Number.toInt?_ofInt (by omega)
  obtain ⟨f, hf⟩ := Int.eq_ofNat_of_zero_le hfirst
  rw [hf] at hlt ⊢
  have hcount : (site.pastMark past - f).toNat = site.pastMark past - f := Int.toNat_of_nonneg (by omega)
  exact ⟨Number.toInt?_ofInt (by omega), by
    rw [show Number.ofInt (f : Int) = .ofNat f from rfl, Number.sub_of_toInt? hpastExact (by omega),
      Number.toInt?_ofInt (by omega), hcount]⟩

end SourceSite

namespace CallFrame

variable {site : SourceSite} {first past : Int}

/-- Blanks up to the first mark, and the marks. -/
def markLine (site : SourceSite) (first past : Int) : List Char :=
  indent ++ List.replicate (site.firstMark first).toNat ' ' ++
    List.replicate (site.pastMark past - site.firstMark first).toNat '~'

section

variable (h : site.Extent first past) (htext : Text.length site.text ≤ Text.maxLength)

include h htext

theorem marks?_eq : marks? site =
    if site.pastMark past ≤ site.firstMark first then none else some (markLine site first past) := by
  simp only [marks?, site.width_sub_trimStart, site.width_trim, site.firstMark_eq h htext,
    site.pastMark_eq h htext, site.le_marks htext first past, decide_eq_true_eq]
  split
  · rfl
  · next hlt =>
      obtain ⟨hblanks, hwaves⟩ := site.counts_of_lt htext (Int.not_le.mp hlt)
      rw [Number.toNat_of_toInt? hblanks, Number.toNat_of_toInt? hwaves]
      rfl

/-- The copies are made, whatever the columns are. -/
theorem copiedMarks_eq : copiedMarks site =
    ((marks? site).map fun marks => Text.bounded? (String.ofList marks)).toList := by
  rw [marks?_eq h htext]
  simp only [copiedMarks, site.width_sub_trimStart, site.width_trim, site.firstMark_eq h htext,
    site.pastMark_eq h htext, site.le_marks htext first past, decide_eq_true_eq]
  split
  · rfl
  · next hlt =>
      have hlength := site.leading_add_shown_le
      have hfirst := site.firstMark_nonneg first
      have hpast := site.pastMark_le past
      obtain ⟨hblanks, hwaves⟩ := site.counts_of_lt htext (Int.not_le.mp hlt)
      have hcopies := Text.copies?_singleton (c := ' ') (by decide) hblanks (by omega)
      have hcopies' := Text.copies?_singleton (c := '~') (by decide) hwaves (by omega)
      rw [show " " = String.singleton ' ' from rfl, hcopies, show "~" = String.singleton '~' from rfl, hcopies']
      simp only [Option.bind_eq_bind, Option.bind_some]
      rw [Text.append?_eq, Text.bounded?_bind_append, ← String.ofList_append, ← String.ofList_append]
      rfl

end

theorem renderedLines_false (frame : CallFrame) :
    frame.renderedLines false = (frame.block false).map Text.bounded? := by
  simp [renderedLines, block, Text.append?_eq, ← String.ofList_append]

theorem renderedLines_true {frame : CallFrame} (h : frame.site.Extent first past)
    (htext : Text.length frame.site.text ≤ Text.maxLength) :
    frame.renderedLines true = (frame.block true).map Text.bounded? := by
  simp only [renderedLines, if_true, copiedMarks_eq h htext, block, Text.append?_eq, ← String.ofList_append]
  cases marks? frame.site <;> rfl

end CallFrame

namespace Record

/-! ### The traceback -/

theorem renderedBlocks_append (outer : List CallFrame) (inner : CallFrame) :
    renderedBlocks (outer ++ [inner]) = outer.flatMap (·.renderedLines false) ++ inner.renderedLines true := by
  induction outer with
  | nil => rfl
  | cons frame rest ih =>
      rw [List.flatMap_cons, List.append_assoc, ← ih]
      cases rest <;> rfl

theorem blocks_append (outer : List CallFrame) (inner : CallFrame) :
    blocks (outer ++ [inner]) = outer.flatMap (·.block false) ++ inner.block true := by
  induction outer with
  | nil => rfl
  | cons frame rest ih =>
      rw [List.flatMap_cons, List.append_assoc, ← ih]
      cases rest <;> rfl

/-- The extents of the frames are whole columns, and their lines are texts. -/
def Sited (r : Record) : Prop :=
  ∀ frame ∈ r.frames, (∃ first past, frame.site.Extent first past) ∧
    Text.length frame.site.text ≤ Text.maxLength

theorem renderedLines_eq {r : Record} (h : r.Sited) :
    r.renderedLines = r.tracebackLines.map Text.bounded? := by
  obtain ⟨failure, frames⟩ := r
  rcases List.eq_nil_or_concat frames with rfl | ⟨outer, inner, rfl⟩
  · rfl
  · -- only the innermost frame has marks, the others are texts as they are
    obtain ⟨⟨first, past, hextent⟩, htext⟩ := h inner (by simp)
    have hblocks : renderedBlocks (outer ++ [inner]) = (blocks (outer ++ [inner])).map Text.bounded? := by
      rw [renderedBlocks_append, blocks_append, CallFrame.renderedLines_true hextent htext, List.map_append,
        List.map_flatMap]
      simp only [CallFrame.renderedLines_false]
    simp [renderedLines, tracebackLines, hblocks, Failure.describe?]

/-- A traceback is put together unless it is longer than any text. -/
theorem render?_eq {r : Record} (h : r.Sited) : r.render? = Text.bounded? r.traceback := by
  have hjoin := @Text.mapM_bounded? _ "\n" id Text.bounded? r.tracebackLines fun _ _ => rfl
  rw [List.map_id] at hjoin
  simp only [render?, renderedLines_eq h, List.mapM_map, Text.join?_eq]
  exact hjoin

end Record

/-! ### Where the marks stand -/

namespace SourceSite

/-- The line has four blanks in front, and then marks exactly under the columns of an extent that are shown, with
blanks before them and nothing after them. -/
structure Marked (site : SourceSite) (first past : Int) (line : String) : Prop where
  indented : (Text.units line).take 4 = List.replicate 4 ' '.toNat
  marks (j : Nat) : (Text.units line)[4 + j]? = some '~'.toNat ↔
    (first ≤ site.leading + j ∧ site.leading + j < past) ∧ j < site.shown
  blanks : ∀ u ∈ Text.units line, u = ' '.toNat ∨ u = '~'.toNat
  last : (Text.units line).getLast? = some '~'.toNat

variable {site : SourceSite} {first past : Int}

/-- There are marks exactly if a column of the extent is shown. -/
theorem marks_iff : site.firstMark first < site.pastMark past ↔
    ∃ c : Int, (first ≤ c ∧ c < past) ∧ site.leading ≤ c ∧ c < site.leading + site.shown := by
  unfold firstMark pastMark
  constructor
  · intro h
    exact ⟨site.leading + max (first - site.leading) 0, by omega⟩
  · rintro ⟨c, hc⟩
    omega

theorem units_markLine : Text.units (String.ofList (CallFrame.markLine site first past)) =
    List.replicate (4 + (site.firstMark first).toNat) ' '.toNat ++
      List.replicate (site.pastMark past - site.firstMark first).toNat '~'.toNat := by
  have hunits : ∀ {c : Char}, c.toNat < 0x10000 → ∀ n,
      (List.replicate n c).flatMap Text.unitsOfChar = List.replicate n c.toNat := by
    intro c hc n
    induction n with
    | zero => rfl
    | succ n ih => rw [List.replicate_succ, List.flatMap_cons, ih, Text.unitsOfChar, if_pos hc]; rfl
  rw [Text.units, String.toList_ofList, CallFrame.markLine, CallFrame.indent, List.replicate_append_replicate,
    List.flatMap_append, hunits (by decide), hunits (by decide)]

theorem marked_markLine (h : site.firstMark first < site.pastMark past) :
    site.Marked first past (String.ofList (CallFrame.markLine site first past)) := by
  have hfirst := site.firstMark_nonneg first
  obtain ⟨f, hf⟩ := Int.eq_ofNat_of_zero_le hfirst
  obtain ⟨n, hn⟩ : ∃ n, (site.pastMark past - site.firstMark first).toNat = n + 1 :=
    ⟨(site.pastMark past - site.firstMark first).toNat - 1, by omega⟩
  constructor
  · rw [units_markLine, ← List.replicate_append_replicate, List.append_assoc]
    rfl
  · intro j
    rw [units_markLine, List.getElem?_append, List.length_replicate, List.getElem?_replicate,
      List.getElem?_replicate]
    unfold firstMark pastMark at *
    split
    · simp; omega
    · simp; omega
  · intro u hu
    rw [units_markLine, List.mem_append] at hu
    exact hu.imp List.eq_of_mem_replicate List.eq_of_mem_replicate
  · rw [units_markLine, hn, List.replicate_succ', ← List.append_assoc, List.getLast?_append]
    rfl

end SourceSite

namespace Record

/-- The lines of a traceback with frames, as the frames have two lines each and the innermost one has marks. -/
theorem tracebackLines_append {r : Record} {outer : List CallFrame} {inner : CallFrame}
    (h : r.frames = outer ++ [inner]) :
    r.tracebackLines = "Traceback (most recent call last):" ::
      (outer ++ [inner]).flatMap (·.block false) ++
        ((CallFrame.marks? inner.site).map String.ofList).toList ++ [r.failure.describe] := by
  have hinner : inner.block true =
      inner.block false ++ ((CallFrame.marks? inner.site).map String.ofList).toList := by
    simp [CallFrame.block]
  have hsome : (outer ++ [inner]).isEmpty = false := by simp
  rw [tracebackLines, h, hsome, blocks_append, hinner, List.flatMap_append, List.flatMap_singleton,
    if_neg Bool.false_ne_true, ← List.append_assoc]
  rfl

/-- **Marks stand exactly under the failing extent.**  For any record whose frames name whole columns, of any sign
and size:

* its traceback is put together from copies of texts without a refusal, unless it is longer than any text, and then
  it is refused;
* it has no line but the description where there are no frames, and else a line in front, two lines for each frame
  and the description, with at most one more line, that of the marks, after those of the innermost frame;
* there is a line of marks exactly if a column of the innermost extent is shown, and then the marks in it stand
  exactly under those columns. -/
theorem traceback_marks {r : Record} (h : r.Sited) :
    r.render? = Text.bounded? r.traceback ∧
    (r.render? = none ↔ Text.maxLength < Text.length r.traceback) ∧
    (r.frames = [] → r.tracebackLines = [r.failure.describe]) ∧
    ∀ outer inner, r.frames = outer ++ [inner] → ∃ marks : Option String,
      r.tracebackLines = "Traceback (most recent call last):" ::
        (outer ++ [inner]).flatMap (fun frame =>
          [s!"  File \"{frame.site.file}\", line {frame.site.line.text}, in {frame.site.name}",
            String.ofList (CallFrame.indent ++ Text.trim frame.site.text.toList)]) ++
        marks.toList ++ [r.failure.describe] ∧
      ∀ first past, inner.site.Extent first past →
        (marks.isSome ↔ ∃ c : Int, (first ≤ c ∧ c < past) ∧
          inner.site.leading ≤ c ∧ c < inner.site.leading + inner.site.shown) ∧
        ∀ line ∈ marks, inner.site.Marked first past line := by
  refine ⟨render?_eq h, by rw [render?_eq h, Text.bounded?_eq_none_iff], fun hnone => ?_,
    fun outer inner hframes => ?_⟩
  · simp [tracebackLines, hnone]
  · refine ⟨(CallFrame.marks? inner.site).map String.ofList, ?_, fun first past hextent => ?_⟩
    · exact tracebackLines_append hframes
    · have htext := (h inner (by simp [hframes])).2
      rw [CallFrame.marks?_eq hextent htext, ← SourceSite.marks_iff]
      by_cases hlt : inner.site.firstMark first < inner.site.pastMark past
      · rw [if_neg (Int.not_le.mpr hlt)]
        refine ⟨iff_of_true rfl hlt, fun line hline => ?_⟩
        cases hline
        exact SourceSite.marked_markLine hlt
      · rw [if_pos (Int.not_lt.mp hlt)]
        exact ⟨iff_of_false Bool.false_ne_true hlt, fun line hline => by cases hline⟩

/-- A call in the module, shown by its whole line. -/
def launching : CallFrame where
  operation := "asyncio.run"
  args := ["coroutine"]
  site := ⟨"main.py", .ofNat 3, "<module>", "asyncio.run(main())", .ofNat 0, .ofNat 19⟩

theorem extent_launching : launching.site.Extent 0 19 := ⟨by decide +kernel, by decide +kernel⟩

theorem length_launching : Text.length launching.site.text ≤ Text.maxLength := by decide +kernel

/-- An addition in an indented line, whose extent begins at the string and goes on far beyond the line. -/
def adding : CallFrame where
  operation := "+"
  args := ["str", "int"]
  site := ⟨"main.py", .ofNat 2, "main", "\t '😀' + x  ", .ofNat 3, .ofInt (10 ^ 20)⟩

/-- An extent that is clipped at the end of the shown line, behind a character of two units. -/
theorem traceback_marks_clipped :
    let r : Record := ⟨.unsupportedOperand "+" "str" "int", [launching, adding]⟩
    r.Sited ∧ r.render? = Text.bounded? r.traceback ∧ ∃ marks,
      r.tracebackLines = ["Traceback (most recent call last):", "  File \"main.py\", line 3, in <module>",
        "    asyncio.run(main())", "  File \"main.py\", line 2, in main", "    '😀' + x", marks,
        "TypeError: unsupported operand type(s) for +: 'str' and 'int'"] ∧
      adding.site.Marked 3 (10 ^ 20) marks := by
  intro r
  have hadding : adding.site.Extent 3 (10 ^ 20) := ⟨by decide +kernel, by decide +kernel⟩
  have hsited : r.Sited := by
    intro frame hframe
    rcases List.mem_cons.mp hframe with rfl | hframe
    · exact ⟨⟨_, _, extent_launching⟩, length_launching⟩
    · obtain rfl := List.mem_singleton.mp hframe
      exact ⟨⟨_, _, hadding⟩, by decide +kernel⟩
  obtain ⟨hrender, -, -, hlines⟩ := traceback_marks hsited
  obtain ⟨marks, hlines, hmarks⟩ := hlines [launching] adding rfl
  obtain ⟨hpresent, hmarked⟩ := hmarks 3 (10 ^ 20) hadding
  obtain ⟨line, rfl⟩ := Option.isSome_iff_exists.mp (hpresent.mpr ⟨3, by decide +kernel⟩)
  have hframes : [launching, adding].flatMap (fun frame =>
      [s!"  File \"{frame.site.file}\", line {frame.site.line.text}, in {frame.site.name}",
        String.ofList (CallFrame.indent ++ Text.trim frame.site.text.toList)]) =
      ["  File \"main.py\", line 3, in <module>", "    asyncio.run(main())",
        "  File \"main.py\", line 2, in main", "    '😀' + x"] := by decide +kernel
  have hdescribe : r.failure.describe = "TypeError: unsupported operand type(s) for +: 'str' and 'int'" := by
    decide +kernel
  refine ⟨hsited, hrender, line, hlines.trans ?_, hmarked line rfl⟩
  rw [List.singleton_append, hframes, hdescribe]
  rfl

/-- An assertion that fails with a message of `n` characters. -/
def failing (n : Nat) : Record := ⟨.assertion (some (String.ofList (List.replicate n 'x'))), [launching]⟩

/-- A record that can be described, in a text of the greatest length, but has no traceback. -/
theorem render?_failing : (failing 536870872).Sited ∧
    (failing 536870872).failure.describe? = some (failing 536870872).failure.describe ∧
    (failing 536870872).render? = none := by
  have hsited : (failing 536870872).Sited := by
    intro frame hframe
    obtain rfl := List.mem_singleton.mp hframe
    exact ⟨⟨_, _, extent_launching⟩, length_launching⟩
  have hdescribe : Text.length (failing 536870872).failure.describe = Text.maxLength := by
    have hname : Text.length "AssertionError: " = 16 := by decide +kernel
    rw [show (failing 536870872).failure.describe =
      "AssertionError: " ++ String.ofList (List.replicate 536870872 'x') from rfl, Text.length_append, hname,
      Text.length_ofList, Text.width_replicate (by decide)]
    rfl
  refine ⟨hsited, Text.bounded?_eq_some hdescribe.le, ?_⟩
  -- the line in front of the frame is too much already
  rw [render?_eq hsited, Text.bounded?_eq_none_iff, ← hdescribe]
  exact Text.length_lt_intercalate (by decide +kernel) (List.mem_append_right _ (List.mem_singleton_self _))

end Record

end Coroutines
