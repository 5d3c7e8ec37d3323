import Coroutines.Proofs.Commands.Agreement

/-!
# Reports of a command

A command reports on one line of the error output why it refuses its work (`Command.Refusal`) and which files it
passes over (`Command.Warns`).  Only a report beyond the greatest length of a text ends it with an error instead,
and no report of less than sixty-seven million units is that long (`Diagnostic.length_line_le`).
-/

namespace Coroutines

namespace Json

theorem width_escape_le (c : Char) : Text.width (escape c) ≤ 8 * Text.width [c] := by
  have hone : 1 ≤ Text.width [c] := Text.length_le_width [c]
  have hpair : ∀ d : Char, Text.width ['\\', d] ≤ 8 * Text.width [c] := fun d =>
    Nat.le_trans (Text.width_le_length _) (by simp only [List.length_cons, List.length_nil]; omega)
  have hcode : Text.width ['\\', 'u', '0', '0', hexDigit (c.toNat / 16), hexDigit (c.toNat % 16)] ≤
      8 * Text.width [c] := by
    have hhead : Text.width ['\\', 'u', '0', '0'] = 4 := by decide
    have htail := Text.width_le_length [hexDigit (c.toNat / 16), hexDigit (c.toNat % 16)]
    have hsplit := Text.width_append ['\\', 'u', '0', '0'] [hexDigit (c.toNat / 16), hexDigit (c.toNat % 16)]
    simp only [List.cons_append, List.nil_append, List.length_cons, List.length_nil] at hsplit htail
    omega
  unfold escape
  repeat' split
  all_goals first
    | exact hpair _
    | exact hcode
    | omega

theorem width_textChars_le (s : String) : Text.width (textChars s) ≤ 8 * Text.length s + 2 := by
  have hescaped : ∀ cs : List Char, Text.width (cs.flatMap escape) ≤ 8 * Text.width cs := by
    intro cs
    induction cs with
    | nil => exact Nat.zero_le _
    | cons c cs ih =>
        have hsplit := Text.width_append [c] cs
        have hc := width_escape_le c
        rw [List.flatMap_cons, Text.width_append, ← List.singleton_append, hsplit]
        omega
  have hquote : Text.width ['"'] = 1 := by decide
  have hwhole := hescaped s.toList
  rw [textChars, ← List.singleton_append, Text.width_append, Text.width_append, hquote, Text.length_eq_width]
  omega

end Json

namespace Diagnostic

/-- What a diagnostic without place and hint is reported as, however long that is. -/
def line (pretty : Bool) (code message : String) : String :=
  if pretty then s!"error[{code}]: {message}" else (plain code message).json.compact

theorem format?_plain (pretty : Bool) (code message : String) :
    (plain code message).format? pretty none = Text.bounded? (line pretty code message) := by
  cases pretty with
  | false => simp only [format?, line, Bool.false_eq_true, if_false]
  | true =>
      simp only [format?, prettyLines?, plain, line, if_true, Option.bind_eq_bind, Option.map_none,
        Option.bind_some, Option.toList_none, List.append_nil, String.intercalate_singleton]

theorem length_line_le (pretty : Bool) (code message : String) :
    Text.length (line pretty code message) ≤ 8 * (Text.length code + Text.length message) + 24 := by
  cases pretty with
  | false =>
      -- the keys and the marks around them take twenty units, the quotes of the two texts four more
      have hcode := Json.width_textChars_le code
      have hmessage := Json.width_textChars_le message
      obtain ⟨first, between, last, hchars, hfirst, hbetween, hlast⟩ : ∃ first between last,
          (plain code message).json.compactChars =
            first ++ Json.textChars code ++ between ++ Json.textChars message ++ last ∧
          Text.width first = 8 ∧ Text.width between = 11 ∧ Text.width last = 1 :=
        ⟨'\x7b' :: Json.textChars "code" ++ [':'], ',' :: Json.textChars "message" ++ [':'], ['\x7d'],
          by simp [plain, json, Json.compactChars, Json.compactMembers], by decide, by decide, by decide⟩
      rw [line, if_neg (by decide), Json.compact, Text.length_ofList, hchars]
      simp only [Text.width_append, hfirst, hbetween, hlast]
      omega
  | true =>
      have hframe : Text.length "error[" = 6 ∧ Text.length "]: " = 3 := by decide
      have hline : line true code message = "error[" ++ code ++ "]: " ++ message := rfl
      rw [hline]
      simp only [Text.length_append, hframe]
      omega

end Diagnostic

/-- A script prints, its exception is reported, or its events are written. -/
def Exchange.OfScript : Exchange → Prop
  | .print .scriptOutput _ => True
  | .print .scriptError _ => True
  | .append _ _ => True
  | _ => False

namespace Command

variable {pretty : Bool} {code message : String} {es : List Exchange}

/-- One line on the error output says why a command refuses its work, and it ends with code 4; where the line is
too long for a text, it ends with an error instead. -/
inductive Refusal (pretty : Bool) (code message : String) : List Exchange → Except Abort Nat → Prop
  | reported (h : Text.length (Diagnostic.line pretty code message) ≤ Text.maxLength) :
    Refusal pretty code message [.print .error (Diagnostic.line pretty code message ++ "\n")] (.ok 4)
  | tooLong (h : Text.maxLength < Text.length (Diagnostic.line pretty code message)) :
    Refusal pretty code message [] (.error .tooLarge)

theorem runs_refuse_iff {result : Except Abort Nat} :
    (refuse pretty code message).Runs es result ↔ Refusal pretty code message es result := by
  have hrefuse : refuse pretty code message =
      (printReport (Text.bounded? (Diagnostic.line pretty code message))).bind fun _ => .done (.ok 4) := by
    rw [← Diagnostic.format?_plain]
    rfl
  rw [hrefuse, runs_printReport]
  constructor
  · rintro (⟨hfits, _, rfl, hend⟩ | ⟨hlong, rfl, rfl⟩)
    · obtain ⟨rfl, rfl⟩ := Shell.runs_done.mp hend
      exact .reported hfits
    · exact .tooLong hlong
  · rintro (hfits | hlong)
    · exact .inl ⟨hfits, _, rfl, .done _⟩
    · exact .inr ⟨hlong, rfl, rfl⟩

theorem Refusal.quiet {result : Except Abort Nat} (h : Refusal pretty code message es result) :
    result ≠ .ok 0 ∧ result ≠ .ok 1 ∧ ∀ e ∈ es, ¬ e.OfScript := by
  cases h with
  | reported => simp [Exchange.OfScript]
  | tooLong => exact ⟨nofun, nofun, nofun⟩

/-- What is reported of a configuration file that is passed over. -/
def warning (pretty : Bool) (f : SkippedFile) : String :=
  Diagnostic.line pretty "W_CONFIG" s!"Ignoring config {f.path}: {f.reason}"

/-- Every file that is passed over is reported on a line of the error output, up to one whose line is too long for
a text. -/
inductive Warns (pretty : Bool) : List SkippedFile → List Exchange → Except Abort Unit → Prop
  | done : Warns pretty [] [] (.ok ())
  | reported {f : SkippedFile} {skipped : List SkippedFile} {es : List Exchange} {result : Except Abort Unit}
    (h : Text.length (warning pretty f) ≤ Text.maxLength) (hrest : Warns pretty skipped es result) :
    Warns pretty (f :: skipped) (.print .error (warning pretty f ++ "\n") :: es) result
  | tooLong {f : SkippedFile} {skipped : List SkippedFile}
    (h : Text.maxLength < Text.length (warning pretty f)) :
    Warns pretty (f :: skipped) [] (.error .tooLarge)

theorem Warns.quiet {skipped : List SkippedFile} {outcome : Except Abort Unit}
    (h : Warns pretty skipped es outcome) : ∀ e ∈ es, ¬ e.OfScript := by
  induction h with
  | done => exact nofun
  | reported _ _ ih => simpa [Exchange.OfScript] using ih
  | tooLong => exact nofun

theorem Warns.eq_tooLarge {skipped : List SkippedFile} {e : Abort} (h : Warns pretty skipped es (.error e)) :
    e = .tooLarge := by
  generalize hresult : Except.error e = result at h
  induction h with
  | done => cases hresult
  | reported _ _ ih => exact ih hresult
  | tooLong => exact Except.error.inj hresult

theorem runs_warnings {skipped : List SkippedFile} {result : Except Abort Unit} :
    (skipped.forM fun f => complain pretty "W_CONFIG" s!"Ignoring config {f.path}: {f.reason}").Runs es result ↔
      Warns pretty skipped es result := by
  induction skipped generalizing es with
  | nil =>
      constructor
      · intro h
        obtain ⟨rfl, rfl⟩ := Shell.runs_done.mp h
        exact .done
      · rintro ⟨⟩
        exact .done _
  | cons f skipped ih =>
      have hcons : ((f :: skipped).forM fun f =>
          complain pretty "W_CONFIG" s!"Ignoring config {f.path}: {f.reason}") =
          (printReport (Text.bounded? (warning pretty f))).bind fun _ => skipped.forM fun f =>
            complain pretty "W_CONFIG" s!"Ignoring config {f.path}: {f.reason}" := by
        rw [warning, ← Diagnostic.format?_plain]
        rfl
      rw [hcons, runs_printReport]
      constructor
      · rintro (⟨hfits, rest, rfl, hrest⟩ | ⟨hlong, rfl, rfl⟩)
        · exact .reported hfits (ih.mp hrest)
        · exact .tooLong hlong
      · rintro (_ | ⟨hfits, hrest⟩ | hlong)
        · exact .inl ⟨hfits, _, rfl, ih.mpr hrest⟩
        · exact .inr ⟨hlong, rfl, rfl⟩

end Command

end Coroutines
