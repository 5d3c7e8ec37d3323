import Coroutines.Proofs.Defects.Spans
import Coroutines.Proofs.Commands.Agreement

/-!
# Rendering of diagnostics

What a report says is a text of some length (`Diagnostic.report`), whatever the columns in it are.  It can be
rendered exactly if that text is not beyond the greatest length.  A defect at a column beyond that length makes
its own report too long, as the line of carets is padded to the column: then the commands end with an error
instead of the code of a unit with defects (`Command.rendering_exact`).
-/

namespace Coroutines

/-! ### Whole columns -/

namespace Number

/-- The carets under a span, counted: as many as columns of the line are left, and one at least. -/
theorem toInt?_width {column endColumn : Number} {c e len : Nat} (hc : column.toInt? = some (c : Int))
    (he : endColumn.toInt? = some (e : Int)) (hlen : len ≤ maxExact) :
    (((endColumn.min (.ofNat len)).sub column).max (.ofNat 1)).toInt? =
      some ((Nat.max (Nat.min e len - c) 1 : Nat) : Int) := by
  obtain ⟨hcr, rfl⟩ := eq_finite_of_toInt? hc
  obtain ⟨her, rfl⟩ := eq_finite_of_toInt? he
  have hlr : Representable ((len : Int) * one) := representable_mul_one (by omega)
  obtain ⟨m, hm, hmr, hmin⟩ : ∃ m : Nat, m = Nat.min e len ∧ ∃ hmr : Representable ((m : Int) * one),
      (Number.finite (e * one) her).min (.ofNat len) = .finite (m * one) hmr := by
    rw [ofNat, ofInt_of_representable hlr]
    simp only [Number.min, lt, mul_one_lt_iff, Int.ofNat_lt, decide_eq_true_eq]
    split
    · next h => exact ⟨len, (Nat.min_eq_right (Nat.le_of_lt h)).symm, hlr, rfl⟩
    · next h => exact ⟨e, (Nat.min_eq_left (Nat.le_of_not_lt h)).symm, her, rfl⟩
  have hsub : (Number.finite (m * one) hmr).sub (.finite (c * one) hcr) = ofUnits ((m - c : Int) * one) := by
    rw [Int.sub_mul]
    rfl
  rw [hmin, hsub, ← hm, Number.max]
  by_cases h : c < m
  · have hlarge : (m - c : Int) * one = ((m - c : Nat) : Int) * one := by rw [Int.ofNat_sub (Nat.le_of_lt h)]
    have hsmall : m - c ≤ maxExact :=
      Nat.le_trans (Nat.sub_le m c) (Nat.le_trans (hm ▸ Nat.min_le_right e len) hlen)
    have hwidth : ofUnits ((m - c : Int) * one) = ofNat (m - c) := congrArg ofUnits hlarge
    rw [hwidth, if_neg (by rw [lt_ofNat hsmall (by decide), decide_eq_true_eq]; omega), toInt?_ofNat hsmall]
    congr 2
    exact (Nat.max_eq_left (Nat.sub_pos_of_lt h)).symm
  · have hle : (m - c : Int) * one ≤ 0 :=
      Int.mul_nonpos_of_nonpos_of_nonneg (by omega) (Int.natCast_nonneg one)
    rw [if_pos (ofUnits_lt_one hle), toInt?_ofNat (by decide)]
    have hzero : m - c = 0 := Nat.sub_eq_zero_of_le (Nat.le_of_not_lt h)
    rw [hzero]
    rfl

end Number

namespace Diagnostic

/-! ### What a report says -/

/-- The line of carets under a span. -/
def caretLine (pad : String) (column width : Nat) : String :=
  pad ++ String.ofList (" | ".toList ++ List.replicate column ' ' ++ List.replicate width '^')

/-- The source line of a span with carets below, from its column up to its end or that of the line. -/
def snippet (s : Span) (source : String) : List String :=
  match Text.lineAt? (Text.lines source) s.site.line with
  | none => []
  | some text =>
    let gutter := s.site.line.text
    let pad := String.ofList (List.replicate gutter.length ' ')
    let column := s.site.column.toNat
    [pad ++ " |", s!"{gutter} | {text}",
      caretLine pad column (max (min s.site.endColumn.toNat (Text.length text) - column) 1)]

/-- The lines of the pretty form, however long they are. -/
def prettyLines (d : Diagnostic) (source : Option String) : List String :=
  let place := match d.span with
    | none => []
    | some s =>
      let column := s.site.column.add (.ofNat 1)
      s!"  --> {s.file}:{s.site.line.text}:{column.text}" :: (source.map (snippet s)).getD []
  s!"error[{d.code}]: {d.message}" :: place ++ (d.hint.map fun h => s!"  hint: {h}").toList

/-- What diagnostics are reported as, however long that is. -/
def report (ds : List Diagnostic) (pretty : Bool) (source : Option String) : String :=
  if pretty then "\n\n".intercalate (ds.map fun d => "\n".intercalate (d.prettyLines source))
  else (Json.array (ds.map json)).compact

/-! ### What is rendered -/

theorem copyCount?_of_whole {n : Number} {k : Nat} (h : n.toInt? = some (k : Int)) :
    Text.copyCount? n = if Text.maxLength < k then none else some k := by
  have htrunc := Number.trunc_of_toInt? h
  cases n with
  | nan => cases h
  | infinite s => cases h
  | finite u hu =>
      unfold Text.copyCount?
      rw [htrunc]
      simp only [h]
      generalize Text.maxLength = m
      split
      · next hk => rw [if_pos (by omega)]
      · next hk => rw [if_neg (by omega), Int.toNat_natCast]

theorem length_caretLine (n column width : Nat) :
    Text.length (caretLine (String.ofList (List.replicate n ' ')) column width) = n + 3 + column + width := by
  have hbar : Text.width " | ".toList = 3 := by decide
  rw [caretLine, Text.length_append, Text.length_ofList, Text.length_ofList, Text.width_append,
    Text.width_append, hbar, Text.width_replicate (by decide), Text.width_replicate (by decide),
    Text.width_replicate (by decide)]
  omega

/-- The line of carets is made unless it is too long. -/
theorem caretLine?_eq {n : Nat} {column width : Number} {c w : Nat} (hc : column.toInt? = some (c : Int))
    (hw : width.toInt? = some (w : Int)) :
    caretLine? (String.ofList (List.replicate n ' ')) column width =
      Text.bounded? (caretLine (String.ofList (List.replicate n ' ')) c w) := by
  have hline : (String.ofList (List.replicate n ' ')).length = n := by
    rw [String.length_ofList, List.length_replicate]
  rw [caretLine?, copyCount?_of_whole hc, copyCount?_of_whole hw, Text.bounded?, length_caretLine, hline]
  generalize Text.maxLength = m
  by_cases hc : m < c
  · simp only [if_pos hc, if_pos (show m < n + 3 + c + w by omega)]
  · by_cases hw : m < w
    · simp only [if_neg hc, if_pos hw, if_pos (show m < n + 3 + c + w by omega)]
    · simp only [if_neg hc, if_neg hw]
      rfl

theorem exists_whole {n : Number} (h : n.AtLeast 0) : ∃ k : Nat, n.toInt? = some (k : Int) := by
  obtain ⟨i, hi, hzero⟩ := h
  obtain ⟨k, rfl⟩ := Int.eq_ofNat_of_zero_le hzero
  exact ⟨k, hi⟩

/-- A diagnostic at whole columns is rendered unless that is too long. -/
theorem format?_eq {d : Diagnostic} (h : ∀ s ∈ d.span, s.site.WellFormed) (source : Option String) :
    d.format? true source = Text.bounded? ("\n".intercalate (d.prettyLines source)) := by
  obtain ⟨code, message, span, hint⟩ := d
  cases span with
  | none => rfl
  | some s =>
      cases source with
      | none => rfl
      | some source =>
          simp only [format?, prettyLines?, prettyLines, if_true, Option.map_some, Option.getD_some]
          unfold snippet? snippet
          cases hline : Text.lineAt? (Text.lines source) s.site.line with
          | none => rfl
          | some text =>
              obtain ⟨c, hc⟩ := exists_whole (h s rfl).column
              obtain ⟨e, he⟩ := exists_whole (h s rfl).endColumn
              simp only [Number.toNat_of_toInt? hc, Number.toNat_of_toInt? he]
              by_cases hlen : Text.length text ≤ Text.maxLength
              · have hw := Number.toInt?_width hc he (Nat.le_trans hlen (by decide))
                rw [caretLine?_eq hc hw]
                rcases Nat.lt_or_ge Text.maxLength (Text.length (caretLine (String.ofList
                  (List.replicate s.site.line.text.length ' ')) c (Nat.max (Nat.min e (Text.length text) - c) 1)))
                  with hlong | hshort
                · rw [Text.bounded?_eq_none hlong]
                  refine (Text.bounded?_intercalate_eq_none ?_ hlong).symm
                  simp [Nat.max_def, Nat.min_def]
                · rw [Text.bounded?_eq_some hshort]
                  rfl
              · have hlong : Text.maxLength < Text.length (s!"{s.site.line.text} | {text}") := by
                  refine Nat.lt_of_lt_of_le (Nat.lt_of_not_le hlen) ?_
                  rw [Text.length_append]
                  exact Nat.le_add_left ..
                rw [Text.bounded?_intercalate_eq_none (by simp) hlong]
                cases caretLine? _ _ _ with
                | none => rfl
                | some carets => exact Text.bounded?_intercalate_eq_none (by simp) hlong

/-- Diagnostics at whole columns are rendered as their report, unless that is too long. -/
theorem formatAll?_eq {ds : List Diagnostic} (h : Located Site.WellFormed ds) (pretty : Bool)
    (source : Option String) : formatAll? ds pretty source = Text.bounded? (report ds pretty source) := by
  cases pretty with
  | false => rfl
  | true =>
      simp only [formatAll?, report, if_true]
      exact Text.mapM_bounded? fun d hd => format?_eq (h d hd) source

/-- A diagnostic beyond the greatest column of a line of the source makes the report too long. -/
theorem lt_length_report {ds : List Diagnostic} {d : Diagnostic} {s : Span} {source line : String} (hd : d ∈ ds)
    (hs : d.span = some s) (hline : Text.lineAt? (Text.lines source) s.site.line = some line)
    (hcolumn : Text.maxLength < s.site.column.toNat) :
    Text.maxLength < Text.length (report ds true (some source)) := by
  have hcarets : ∃ carets ∈ d.prettyLines (some source), Text.maxLength < Text.length carets := by
    simp only [prettyLines, hs, Option.map_some, Option.getD_some, snippet, hline]
    refine ⟨_, List.mem_cons_of_mem _ (List.mem_append_left _ (List.mem_cons_of_mem _ (List.mem_cons_of_mem _
      (List.mem_cons_of_mem _ List.mem_cons_self)))), ?_⟩
    rw [length_caretLine]
    omega
  obtain ⟨carets, hmem, hlong⟩ := hcarets
  have hform : Text.length carets ≤ Text.length ("\n".intercalate (d.prettyLines (some source))) :=
    Text.length_le_intercalate hmem
  refine Nat.lt_of_lt_of_le hlong (Nat.le_trans hform ?_)
  rw [report, if_pos rfl]
  exact Text.length_le_intercalate (List.mem_map_of_mem hd)

end Diagnostic

namespace Command

/-! ### What the commands do with a unit with defects -/

/-- How a command goes on that has a report to make: it prints it and ends with the code of a unit with defects,
or, if the report is too long for a text, it prints nothing and ends with an error. -/
def Reports (report : String) (runs : List Exchange → Except Abort Nat → Prop) : Prop :=
  ∀ es result, runs es result ↔
    (Text.length report ≤ Text.maxLength ∧ es = [.print .error (report ++ "\n")] ∧ result = .ok 2) ∨
    (Text.maxLength < Text.length report ∧ es = [] ∧ result = .error .tooLarge)

theorem Reports.read {report path : String} {contents : Contents} {next : Contents → Shell Nat}
    (h : Reports report (next contents).Runs) :
    Reports report fun es => (Shell.read path next).Runs (.read path contents :: es) :=
  fun es result => Shell.runs_read_cons.trans (h es result)

theorem Reports.input {report text : String} {next : String → Shell Nat} (h : Reports report (next text).Runs) :
    Reports report fun es => (Shell.input next).Runs (.input text :: es) :=
  fun es result => Shell.runs_input_cons.trans (h es result)

theorem reports_reject {pretty : Bool} {source : Option String} {ds : List Diagnostic}
    (h : Located Site.WellFormed ds) :
    Reports (Diagnostic.report ds pretty source) (reject pretty source ds).Runs := by
  intro es result
  have hreject : reject pretty source ds = (printReport (Text.bounded? (Diagnostic.report ds pretty source))).bind
      fun _ => .done (.ok 2) := by
    rw [reject, Diagnostic.formatAll?_eq h]
    rfl
  rw [hreject, runs_printReport]
  simp

section

variable {text file : String} {unit : CompiledUnit} {ds : List Diagnostic}

/-- A unit with defects that is to be run is reported. -/
theorem reports_runContents (hload : UnitFile.load text file = .ok unit)
    (hds : unit.validate (some Builtin.names) = ds) (hdefects : ds ≠ []) (hlocated : Located Site.WellFormed ds)
    (p : Places) (o : RunOptions) :
    Reports (Diagnostic.report ds o.pretty (some unit.source)) (runContents p o file (.text text)).Runs := by
  simp only [runContents, hload, hds]
  cases ds with
  | nil => exact absurd rfl hdefects
  | cons d ds => exact reports_reject hlocated

/-- A unit with defects that is to be checked is reported. -/
theorem reports_check (hload : UnitFile.load text file = .ok unit)
    (hds : unit.validate (some Builtin.names) = ds) (hdefects : ds ≠ []) (hlocated : Located Site.WellFormed ds)
    (pretty : Bool) : Reports (Diagnostic.report ds pretty (some unit.source))
      (fun es => (check file pretty).Runs (.read file (.text text) :: es)) := by
  refine .read ?_
  simp only [hload, hds]
  cases ds with
  | nil => exact absurd rfl hdefects
  | cons d ds => exact reports_reject hlocated

end

/-- **Diagnostics are rendered unless their report is too long for a text.**  For any unit that was loaded:

* with or without the names of builtins, rendering its diagnostics gives their report, in either form, unless
  that is beyond the greatest length of a text;
* the pretty form is beyond it as soon as one diagnostic names a line of the source and a column beyond the
  greatest length;
* where the unit has defects, checking it and running it, from a file or from the standard input, print the
  report and end with code 2 exactly if the report is not too long; else they print nothing and end with an
  error. -/
theorem rendering_exact {text file : String} {unit : CompiledUnit} (hload : UnitFile.load text file = .ok unit) :
    (∀ builtins pretty, Diagnostic.formatAll? (unit.validate builtins) pretty (some unit.source) =
      Text.bounded? (Diagnostic.report (unit.validate builtins) pretty (some unit.source))) ∧
    (∀ builtins, ∀ d ∈ unit.validate builtins, ∀ s ∈ d.span, ∀ line,
      Text.lineAt? (Text.lines unit.source) s.site.line = some line → Text.maxLength < s.site.column.toNat →
        Diagnostic.formatAll? (unit.validate builtins) true (some unit.source) = none) ∧
    (unit.validate (some Builtin.names) ≠ [] → ∀ p o,
      let report := Diagnostic.report (unit.validate (some Builtin.names)) o.pretty (some unit.source)
      Reports report (fun es => (check file o.pretty).Runs (.read file (.text text) :: es)) ∧
        (file ≠ "-" → Reports report fun es => (run p file o).Runs (.read file (.text text) :: es)) ∧
        (file = "<stdin>" → Reports report fun es => (run p "-" o).Runs (.input text :: es))) := by
  have hlocated : ∀ builtins, Located Site.WellFormed (unit.validate builtins) := fun builtins =>
    (unit.located_validate builtins).mono fun s hs => UnitFile.wellFormed_site hload hs
  have hformat := fun builtins pretty => Diagnostic.formatAll?_eq (hlocated builtins) pretty (some unit.source)
  refine ⟨hformat, fun builtins d hd s hs line hline hcolumn => ?_, fun hdefects p o => ?_⟩
  · rw [hformat]
    exact Text.bounded?_eq_none (Diagnostic.lt_length_report hd hs hline hcolumn)
  · have hruns := reports_runContents hload rfl hdefects (hlocated _) p o
    refine ⟨reports_check hload rfl hdefects (hlocated _) o.pretty, fun hfile => ?_, fun hfile => ?_⟩
    · rw [run, if_neg hfile]
      exact hruns.read
    · subst hfile
      rw [run, if_pos rfl]
      exact hruns.input

/-- A name at the column 600000000 of a short line. -/
def distant : CompiledUnit where
  file := "distant.py"
  source := "x"
  inputs := some ["x"]
  functions := []
  module := [.expr (.name "x" (some ⟨.ofNat 1, .ofNat 600000000, .ofNat 600000001⟩)) none]

theorem wellFormed_distant : distant.WellFormed (·.isFinite = true) := by
  have hwhole : ∀ {least m : Nat}, least ≤ m → m ≤ Number.maxExact → (Number.ofNat m).AtLeast least :=
    fun hl hm => ⟨_, Number.toInt?_ofNat hm, Int.ofNat_le.mpr hl⟩
  have hsite : Site.WellFormed ⟨.ofNat 1, .ofNat 600000000, .ofNat 600000001⟩ :=
    ⟨hwhole (by decide) (by decide), hwhole (by decide) (by decide), hwhole (by decide) (by decide)⟩
  refine ⟨by decide, by simp [distant], by simp [distant], ?_⟩
  intro s hs
  obtain rfl := List.mem_singleton.mp hs
  exact ⟨.name (by decide) (by simpa using hsite), by simp⟩

/-- The report of one defect is too long: the commands end with an error. -/
theorem rendering_distant : ∃ text, UnitFile.load text "unit.json" = .ok distant ∧
    (distant.validate (some Builtin.names)).map (·.code) = ["E_SITE"] ∧
    Diagnostic.formatAll? (distant.validate (some Builtin.names)) true (some distant.source) = none ∧
    (check "unit.json" true).Runs [.read "unit.json" (.text text)] (.error .tooLarge) ∧
    (run ⟨"", ""⟩ "unit.json" ⟨none, none, [], true⟩).Runs [.read "unit.json" (.text text)]
      (.error .tooLarge) := by
  have hload : UnitFile.load distant.json.compact "unit.json" = .ok distant :=
    UnitFile.load_members wellFormed_distant "unit.json" (some "distant.py") (by simp)
  have hcode : (distant.validate (some Builtin.names)).map (·.code) = ["E_SITE"] := by decide +kernel
  obtain ⟨hrendered, hbeyond, hcommands⟩ := rendering_exact hload
  obtain ⟨d, hd, s, hs, hline, hcolumn⟩ : ∃ d ∈ distant.validate (some Builtin.names), ∃ s ∈ d.span,
      Text.lineAt? (Text.lines distant.source) s.site.line = some "x" ∧ 600000000 ≤ s.site.column.toNat := by
    decide +kernel
  have hnone := hbeyond _ d hd s hs "x" hline (Nat.lt_of_lt_of_le (by decide) hcolumn)
  have hlong := Text.bounded?_eq_none_iff.mp ((hrendered _ true).symm.trans hnone)
  have hdefects : distant.validate (some Builtin.names) ≠ [] := by
    rintro h
    rw [h] at hcode
    cases hcode
  obtain ⟨hcheck, hrun, -⟩ := hcommands hdefects ⟨"", ""⟩ ⟨none, none, [], true⟩
  exact ⟨_, hload, hcode, hnone, (hcheck [] _).mpr (.inr ⟨hlong, rfl, rfl⟩),
    (hrun (by decide) [] _).mpr (.inr ⟨hlong, rfl, rfl⟩)⟩

end Command

end Coroutines
