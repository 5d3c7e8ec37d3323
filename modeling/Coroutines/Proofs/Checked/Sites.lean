import Coroutines.Proofs.Exact
import Coroutines.Proofs.Lengths
import Coroutines.Validation
import Coroutines.Script.Program

/-!
# Sites inside the source

What the static check of a site establishes: its line is the number of a line of the source, and its
columns fit that line.  Line numbers are numbers of the script's kind, so this takes a source that is
not longer than a text can be; up to there whole numbers are exact.
-/

namespace Coroutines

namespace Text

/-- The lines of a source are consecutive: a whole number with a line is the count of it. -/
theorem eq_ofNat_of_lineAt? {lines : List String} {line : Number} {text : String}
    (hlines : lines.length ≤ Number.maxExact) (hline : line.isInteger = true)
    (h : lineAt? lines line = some text) :
    ∃ n, 1 ≤ n ∧ n ≤ lines.length ∧ line = .ofNat n ∧ lines[n - 1]? = some text := by
  obtain ⟨i, hi⟩ := Option.isSome_iff_exists.mp hline
  obtain ⟨hr, rfl⟩ := Number.eq_finite_of_toInt? hi
  simp only [lineAt?, Number.finite_sub_one] at h
  split at h
  · next j hj =>
      split at h
      · cases h
      · next hneg =>
          have hlt := (List.getElem?_eq_some_iff.mp h).1
          have hsmall : (i - 1).natAbs ≤ Number.maxExact := by
            refine Nat.le_of_not_lt fun hfar => ?_
            have := Number.maxExact_le_of_toInt? hfar hj
            omega
          rw [Number.ofInt_of_representable (Number.representable_mul_one hsmall),
            Number.toInt?_finite_mul_one] at hj
          cases hj
          have hn : ((i.toNat : Nat) : Int) = i := by omega
          refine ⟨i.toNat, by omega, by omega, ?_, ?_⟩
          · rw [Number.ofNat, hn, Number.ofInt_of_representable hr]
          · rw [← h]
            congr 1
            omega
  · cases h

/-- The lines of a source are those at its line numbers, which count from one. -/
theorem lineAt?_eq_some_iff {lines : List String} {line : Number} {text : String}
    (hlines : lines.length ≤ Number.maxExact) :
    lineAt? lines line = some text ∧ line.isInteger = true ↔
      ∃ n, 1 ≤ n ∧ line = .ofNat n ∧ lines[n - 1]? = some text := by
  constructor
  · rintro ⟨h, hline⟩
    obtain ⟨n, hone, -, hn, hat⟩ := eq_ofNat_of_lineAt? hlines hline h
    exact ⟨n, hone, hn, hat⟩
  · rintro ⟨n, hone, rfl, hat⟩
    have hlt := (List.getElem?_eq_some_iff.mp hat).1
    have hn : Representable ((n : Int) * Number.one) := Number.representable_mul_one (by omega)
    have hpred : Representable ((n - 1 : Int) * Number.one) := Number.representable_mul_one (by omega)
    have hindex : (n - 1 : Int).toNat = n - 1 := by omega
    have hline : Number.ofNat n = .finite ((n : Int) * Number.one) hn := Number.ofInt_of_representable hn
    rw [hline, lineAt?, Number.finite_sub_one, Number.ofInt_of_representable hpred,
      Number.isInteger, Number.toInt?_finite_mul_one, Number.toInt?_finite_mul_one]
    simp only [hindex]
    exact ⟨(if_neg (by omega)).trans hat, rfl⟩

theorem length_linesOf_le (cs : List Char) : (linesOf cs).length ≤ cs.length + 1 := by
  fun_induction linesOf cs with
  | case1 => simp
  | case2 rest ih => simp; omega
  | case3 rest ih => simp; omega
  | case4 c rest _ _ hl ih => simp
  | case5 c rest _ _ line more hl ih => simp [hl] at ih ⊢; omega

/-- A source that is a text has few enough lines for whole numbers to count them. -/
theorem length_lines_le {source : String} (h : length source ≤ maxLength) :
    (lines source).length ≤ Number.maxExact := by
  have hwidth := length_le_width source.toList
  have hlines := length_linesOf_le source.toList
  rw [length_eq_width] at h
  unfold maxLength at h
  have hexact : 536870889 ≤ Number.maxExact := by decide
  simp only [lines, List.length_map]
  omega

end Text

/-- The place of a frame lies inside the source: its line counts a line of the source, whose text it
holds, and its columns fit that line, as far as they are numbers. -/
structure SourceSite.Fits (lines : List String) (s : SourceSite) : Prop where
  line : ∃ n, 1 ≤ n ∧ n ≤ lines.length ∧ s.line = .ofNat n ∧ lines[n - 1]? = some s.text
  start : s.startColumn ≠ .nan →
    Number.zero.le s.startColumn = true ∧ s.startColumn.le (.ofNat (Text.length s.text)) = true
  order : s.startColumn ≠ .nan → s.endColumn ≠ .nan → s.startColumn.le s.endColumn = true

/-- **A site without defects lies inside the source.** -/
theorem Program.fits_sourceSite {unit : CompiledUnit} {builtins : Option (List String)} {site : Site}
    (hsize : Text.length unit.source ≤ Text.maxLength)
    (h : (unit.checkContext builtins).site site = []) (scope : String) :
    ((Program.ofUnit unit).sourceSite scope site).Fits (Text.lines unit.source) := by
  simp only [CheckContext.site] at h
  split at h
  · next text htext hint =>
      obtain ⟨n, hone, hle, hline, hat⟩ := Text.eq_ofNat_of_lineAt? (Text.length_lines_le hsize) hint htext
      have hsource : ((Program.ofUnit unit).sourceSite scope site).text = text := by
        simp only [Program.sourceSite, Program.ofUnit]
        rw [show Text.lineAt? (Text.lines unit.source) site.line = some text from htext]
        rfl
      split at h
      · cases h
      · next hcolumns =>
          simp only [Bool.or_eq_true, not_or, Bool.not_eq_true] at hcolumns
          obtain ⟨⟨hzero, horder⟩, hend⟩ := hcolumns
          refine ⟨⟨n, hone, hle, hline, hsource ▸ hat⟩, fun hs => ⟨?_, ?_⟩, fun hs he => ?_⟩
          · exact Number.le_of_not_lt hs (Number.ofInt_ne_nan 0) hzero
          · rw [hsource]
            exact Number.le_of_not_lt (Number.ofInt_ne_nan _) hs hend
          · exact Number.le_of_not_lt he hs horder
  · cases h

end Coroutines
