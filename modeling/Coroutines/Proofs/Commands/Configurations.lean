import Coroutines.Command.Execute
import Coroutines.Command.Settings
import Coroutines.Proofs.Commands.Exchanges
import Coroutines.Proofs.Exact

/-!
# Which configuration holds

A file holds a configuration if its text is a JSON object whose limit, if it sets one, is a whole number of at
least one (`Contents.Holds`).  A command takes the first file that holds one (`Settings.Finds`); so its limit
is absent or a whole number of at least one (`Settings.Finds.isLimit`), whatever the files hold.
-/

namespace Coroutines

namespace Number

/-- A whole number of at least one. -/
def IsLimit (n : Number) : Prop := ∃ k : Nat, 1 ≤ k ∧ n.toInt? = some (k : Int)

theorem IsLimit.isFinite {n : Number} (h : n.IsLimit) : n.isFinite = true := by
  obtain ⟨k, -, hk⟩ := h
  cases n with
  | finite => rfl
  | _ => cases hk

theorem isPositiveInteger_iff {n : Number} : n.isPositiveInteger = true ↔ n.IsLimit := by
  have hone : Number.ofNat 1 = .finite ((1 : Int) * one) (representable_mul_one (by decide)) :=
    ofInt_of_representable _
  cases hn : n.toInt? with
  | none => simp [isPositiveInteger, isInteger, IsLimit, hn]
  | some i =>
      obtain ⟨hr, rfl⟩ := eq_finite_of_toInt? hn
      simp only [isPositiveInteger, isInteger, hn, IsLimit, hone, lt, mul_one_lt_iff, Option.isSome_some,
        Bool.true_and, Bool.not_eq_true', decide_eq_false_iff_not, Int.not_lt, Option.some.injEq]
      constructor
      · intro h
        exact ⟨i.toNat, by omega, by omega⟩
      · rintro ⟨k, hk, rfl⟩
        omega

end Number

/-! ### Configuration files -/

/-- The limit that a configuration sets: none, or a whole number of at least one. -/
inductive Json.LimitsTo (j : Json) : Option Number → Prop
  | absent (h : j.get? "limits" = none) : LimitsTo j none
  | unset {members : List (String × Json)} (h : j.get? "limits" = some (.object members))
    (hm : Bindings.get? members "maxSteps" = none) : LimitsTo j none
  | set {members : List (String × Json)} {n : Number} (h : j.get? "limits" = some (.object members))
    (hm : Bindings.get? members "maxSteps" = some (.number n)) (hn : n.IsLimit) : LimitsTo j (some n)

theorem Json.LimitsTo.isLimit {j : Json} {maxSteps : Option Number} (h : j.LimitsTo maxSteps) :
    ∀ n ∈ maxSteps, n.IsLimit := by
  rintro n ⟨⟩
  cases h with
  | set _ _ hn => exact hn

namespace Config

theorem limits?_eq_ok_iff {j : Json} {maxSteps : Option Number} :
    limits? j = .ok maxSteps ↔ j.LimitsTo maxSteps := by
  constructor
  · intro h
    unfold limits? at h
    split at h
    · next hlimits =>
        cases h
        exact .absent hlimits
    · next hlimits =>
        split at h
        · next hsteps =>
            cases h
            exact .unset hlimits hsteps
        · next n hsteps =>
            split at h
            · next hn =>
                cases h
                exact .set hlimits hsteps (Number.isPositiveInteger_iff.mp hn)
            · cases h
        · cases h
    · cases h
  · intro h
    cases h with
    | absent h => simp only [limits?, h]
    | unset h hm => simp only [limits?, h, hm]
    | set h hm hn => simp only [limits?, h, hm, Number.isPositiveInteger_iff.mpr hn, if_true]

theorem ofJson_eq_ok_iff {j : Json} {config : Config} : ofJson j = .ok config ↔
    (∃ members, j = .object members) ∧ j.LimitsTo config.maxSteps ∧
      config.version = (j.field? "version" Json.number?).getD (.ofNat 1) := by
  rw [← limits?_eq_ok_iff]
  cases j with
  | object members =>
      obtain ⟨version, maxSteps⟩ := config
      cases hlimits : limits? (.object members) <;> simp [ofJson, hlimits, Except.map, eq_comm, and_comm]
  | _ => simp [ofJson]

end Config

/-- What is found at a path is the text of a configuration: a JSON object that sets no limit but a whole number of
at least one. -/
def Contents.Holds (contents : Contents) (config : Config) : Prop :=
  ∃ text j, contents = .text text ∧ Json.parse? text = some j ∧ (∃ members, j = .object members) ∧
    j.LimitsTo config.maxSteps ∧ config.version = (j.field? "version" Json.number?).getD (.ofNat 1)

namespace Settings

theorem fromContents_eq_ok_iff {contents : Contents} {config : Config} :
    fromContents contents = some (.ok config) ↔ contents.Holds config := by
  cases contents with
  | absent => simp [fromContents, Contents.Holds]
  | unreadable => simp [fromContents, Contents.Holds]
  | text text =>
      cases hj : Json.parse? text with
      | none => simp [fromContents, Contents.Holds, hj]
      | some j =>
          have hmap : (Config.ofJson j).mapError ConfigError.message = .ok config ↔
              Config.ofJson j = .ok config := by
            cases Config.ofJson j with
            | ok c =>
                constructor <;> intro h
                · exact congrArg Except.ok (Except.ok.inj h)
                · exact congrArg Except.ok (Except.ok.inj h)
            | error e => constructor <;> intro h <;> cases h
          simp only [fromContents, hj, Option.some.injEq, hmap, Config.ofJson_eq_ok_iff]
          constructor
          · intro h
            exact ⟨text, j, rfl, hj, h⟩
          · rintro ⟨_, other, ⟨⟩, hother, h⟩
            obtain rfl : j = other := Option.some.inj (hj.symm.trans hother)
            exact h

theorem eq_absent_of_fromContents {contents : Contents} (h : fromContents contents = none) :
    contents = .absent := by
  cases contents with
  | absent => rfl
  | unreadable => cases h
  | text text =>
      simp only [fromContents] at h
      split at h <;> cases h

/-! ### Looking for a configuration -/

/-- Files are read one after the other up to the first that holds a configuration.  Those before it are not
there or are skipped, each with a reason. -/
inductive Finds : List (ConfigSource × String) → List Exchange → Settings → Prop
  | nothing : Finds [] [] ⟨.standard, .default, none, []⟩
  | holds {source : ConfigSource} {path : String} {files : List (ConfigSource × String)} {contents : Contents}
    {config : Config} (h : contents.Holds config) :
    Finds ((source, path) :: files) [.read path contents] ⟨config, source, some path, []⟩
  | absent {source : ConfigSource} {path : String} {files : List (ConfigSource × String)} {es : List Exchange}
    {s : Settings} (h : Finds files es s) :
    Finds ((source, path) :: files) (.read path .absent :: es) s
  | skipped {source : ConfigSource} {path reason : String} {files : List (ConfigSource × String)}
    {contents : Contents} {es : List Exchange} {s : Settings}
    (hc : fromContents contents = some (.error reason)) (h : Finds files es s) :
    Finds ((source, path) :: files) (.read path contents :: es) { s with skipped := ⟨path, reason⟩ :: s.skipped }

variable {files : List (ConfigSource × String)} {skipped : List SkippedFile} {es : List Exchange} {s : Settings}
  {result : Except Abort Settings}

theorem runs_choose : (choose skipped files).Runs es result ↔
    ∃ s, Finds files es s ∧ result = .ok { s with skipped := skipped ++ s.skipped } := by
  -- the files that are passed over add to `skipped` before the next one is read
  induction files generalizing skipped es with
  | nil =>
      have hend : choose skipped [] = .done (.ok ⟨.standard, .default, none, skipped⟩) := rfl
      rw [hend, Shell.runs_done]
      constructor
      · rintro ⟨rfl, rfl⟩
        exact ⟨_, .nothing, by simp⟩
      · rintro ⟨_, ⟨⟩, rfl⟩
        exact ⟨rfl, by simp⟩
  | cons f files ih =>
      obtain ⟨source, path⟩ := f
      rw [choose, Shell.runs_read]
      constructor
      · rintro ⟨contents, rest, rfl, hrest⟩
        split at hrest
        · next hc =>
            obtain rfl := eq_absent_of_fromContents hc
            obtain ⟨s, hs, rfl⟩ := ih.mp hrest
            exact ⟨s, .absent hs, rfl⟩
        · next reason hc =>
            obtain ⟨s, hs, rfl⟩ := ih.mp hrest
            exact ⟨_, .skipped hc hs, by simp⟩
        · next config hc =>
            obtain ⟨rfl, rfl⟩ := Shell.runs_done.mp hrest
            exact ⟨_, .holds (fromContents_eq_ok_iff.mp hc), by simp⟩
      · rintro ⟨s, hs, rfl⟩
        cases hs with
        | holds h =>
            refine ⟨_, _, rfl, ?_⟩
            rw [fromContents_eq_ok_iff.mpr h]
            exact Shell.runs_done.mpr ⟨rfl, by simp⟩
        | absent h => exact ⟨_, _, rfl, ih.mpr ⟨s, h, rfl⟩⟩
        | skipped hc h =>
            refine ⟨_, _, rfl, ?_⟩
            rw [hc]
            exact ih.mpr ⟨_, h, by simp⟩

theorem runs_find {p : Places} : (find p).Runs es result ↔ ∃ s, Finds p.files es s ∧ result = .ok s := by
  rw [find, runs_choose]
  simp only [List.nil_append]

/-- **The limit of a configuration** is absent or a whole number of at least one, whichever file holds it. -/
theorem Finds.isLimit (h : Finds files es s) : ∀ n ∈ s.config.maxSteps, n.IsLimit := by
  induction h with
  | nothing => rintro _ ⟨⟩
  | holds h =>
      obtain ⟨_, _, _, _, _, hlimits, _⟩ := h
      exact hlimits.isLimit
  | absent _ ih => exact ih
  | skipped _ _ ih => exact ih

end Settings

namespace Command

variable {o : RunOptions} {config : Config} {maxSteps : Option Number}

/-! ### The limit on the steps -/

/-- The limit on the steps: the one on the command line, a whole number of at least one, or else that of the
configuration. -/
inductive Granted (o : RunOptions) (config : Config) : Option Number → Prop
  | given {text : String} (ht : o.maxSteps = some text) (hn : (Number.ofNumeral text).IsLimit) :
    Granted o config (some (.ofNumeral text))
  | configured (ht : o.maxSteps = none) : Granted o config config.maxSteps

theorem Granted.isLimit (h : Granted o config maxSteps) (hconfig : ∀ n ∈ config.maxSteps, n.IsLimit) :
    ∀ n ∈ maxSteps, n.IsLimit := by
  cases h with
  | given _ hn =>
      rintro _ ⟨⟩
      exact hn
  | configured => exact hconfig

theorem limit_eq_ok_iff : limit o config = .ok maxSteps ↔ Granted o config maxSteps := by
  constructor
  · intro h
    cases ht : o.maxSteps with
    | none =>
        simp only [limit, ht] at h
        cases h
        exact .configured ht
    | some text =>
        simp only [limit, ht] at h
        split at h
        · next hn =>
            cases h
            exact .given ht (Number.isPositiveInteger_iff.mp hn)
        · cases h
  · rintro (⟨ht, hn⟩ | ht)
    · simp only [limit, ht, Number.isPositiveInteger_iff.mpr hn, if_true]
    · simp only [limit, ht]

/-- What is wrong with the limit on the command line. -/
def limitMessage (text : String) : String := s!"--max-steps must be a positive integer, got '{text}'."

theorem limit_eq_error_iff {message : String} : limit o config = .error message ↔
    ∃ text, o.maxSteps = some text ∧ ¬ (Number.ofNumeral text).IsLimit ∧ message = limitMessage text := by
  cases ht : o.maxSteps with
  | none =>
      rw [limit_eq_ok_iff.mpr (.configured ht)]
      exact iff_of_false nofun nofun
  | some text =>
      by_cases hn : (Number.ofNumeral text).IsLimit
      · rw [limit_eq_ok_iff.mpr (.given ht hn)]
        refine iff_of_false nofun ?_
        rintro ⟨_, ⟨⟩, hno, -⟩
        exact hno hn
      · have herror : limit o config = .error (limitMessage text) := by
          simp only [limit, ht]
          exact if_neg (mt Number.isPositiveInteger_iff.mp hn)
        rw [herror, Except.error.injEq]
        constructor
        · intro h
          exact ⟨text, rfl, hn, h.symm⟩
        · rintro ⟨_, ⟨⟩, -, h⟩
          exact h.symm

end Command

end Coroutines
