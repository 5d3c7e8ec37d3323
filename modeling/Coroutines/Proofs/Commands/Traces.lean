import Coroutines.Proofs.Commands.Agreement
import Coroutines.Proofs.Commands.Configurations

/-!
# The trace file of a run

A command leaves in a file what it appends after making it (`Exchange.left`).  The command that runs a unit
makes its trace file once, empty, and appends the events of the unit, if it comes to run it
(`Command.left_run`).
-/

namespace Coroutines

namespace Exchange

/-- What a file holds after an exchange, where it is absent until it is made. -/
def write (path : String) (content : Option String) : Exchange → Option String
  | .create p made => if p = path ∧ made = true then some "" else content
  | .append p text => if p = path then content.map (· ++ text) else content
  | _ => content

theorem write_append (path content text : String) :
    write path (some content) (.append path text) = some (content ++ text) := by
  simp [write]

/-- What exchanges leave in a file that is made in them. -/
def left (path : String) (es : List Exchange) : Option String := es.foldl (write path) none

end Exchange

namespace Shell

variable {α γ : Type} {path : String} {P : Option String → Prop} {content : Option String} {x : Shell α}
  {es : List Exchange} {result : Except Abort α}

/-- Whatever a command is answered, it leaves a file with a property, where the file holds some content
before. -/
def Leaves (path : String) (P : Option String → Prop) : Option String → Shell α → Prop
  | content, .done _ => P content
  | content, .read _ next => ∀ contents, (next contents).Leaves path P content
  | content, .input next => ∀ text, (next text).Leaves path P content
  | content, .create p next => ∀ made,
    (next made).Leaves path P (Exchange.write path content (.create p made))
  | content, .append p text next => next.Leaves path P (Exchange.write path content (.append p text))
  | content, .runId next => ∀ runId, (next runId).Leaves path P content
  | content, .time next => ∀ time, (next time).Leaves path P content
  | content, .print _ _ next => next.Leaves path P content

theorem Leaves.of_runs (h : x.Leaves path P content) (hr : x.Runs es result) :
    P (es.foldl (Exchange.write path) content) := by
  induction hr generalizing content with
  | done result => exact h
  | append _ ih => exact ih h
  | print _ ih => exact ih h
  | read _ ih => exact ih (h _)
  | input _ ih => exact ih (h _)
  | create _ ih => exact ih (h _)
  | runId _ ih => exact ih (h _)
  | time _ ih => exact ih (h _)

theorem Leaves.mono {Q : Option String → Prop} (h : x.Leaves path P content) (hPQ : ∀ c, P c → Q c) :
    x.Leaves path Q content := by
  induction x generalizing content with
  | done r => exact hPQ content h
  | append p text next ih => exact ih h
  | print channel text next ih => exact ih h
  | create p next ih => exact fun made => ih made (h made)
  | _ => exact fun answer => by solve_by_elim

/-- The command makes and writes no file. -/
def Still : Shell α → Prop
  | .done _ => True
  | .read _ next => ∀ contents, (next contents).Still
  | .input next => ∀ text, (next text).Still
  | .create _ _ => False
  | .append _ _ _ => False
  | .runId next => ∀ runId, (next runId).Still
  | .time next => ∀ time, (next time).Still
  | .print _ _ next => next.Still

namespace Still

theorem leaves (h : x.Still) (hP : P content) : x.Leaves path P content := by
  induction x with
  | done r => exact hP
  | create p next => exact h.elim
  | append p text next => exact h.elim
  | print channel text next ih => exact ih h
  | _ => exact fun answer => by solve_by_elim

/-- A command that writes nothing before it goes on, or fails. -/
theorem leaves_bind {k : α → Shell γ} (h : x.Still) (hP : P content)
    (hk : ∀ es a, x.Runs es (.ok a) → (k a).Leaves path P content) : (x.bind k).Leaves path P content := by
  induction x with
  | done r =>
    cases r with
    | ok a => exact hk [] a (.done _)
    | error e => exact hP
  | create p next => exact h.elim
  | append p text next => exact h.elim
  | print channel text next ih => exact ih h fun es a ha => hk _ a ha.print
  | read p next ih => exact fun contents => ih contents (h contents) fun es a ha => hk _ a ha.read
  | input next ih => exact fun text => ih text (h text) fun es a ha => hk _ a ha.input
  | runId next ih => exact fun runId => ih runId (h runId) fun es a ha => hk _ a ha.runId
  | time next ih => exact fun time => ih time (h time) fun es a ha => hk _ a ha.time

theorem bind {k : α → Shell γ} (h : x.Still) (hk : ∀ a, (k a).Still) : (x.bind k).Still := by
  induction x with
  | done r =>
    cases r with
    | ok a => exact hk a
    | error e => exact trivial
  | create p next => exact h.elim
  | append p text next => exact h.elim
  | print channel text next ih => exact ih h
  | _ => exact fun answer => by solve_by_elim

end Still

end Shell

/-! ### Requests that write nothing -/

theorem Settings.still_choose (skipped : List SkippedFile) (files : List (ConfigSource × String)) :
    (choose skipped files).Still := by
  induction files generalizing skipped with
  | nil => exact trivial
  | cons f files ih =>
    intro contents
    dsimp only
    split
    · exact ih skipped
    · exact ih _
    · exact trivial

namespace Command

variable {p : Places} {o : RunOptions} {unit : CompiledUnit} {inputs : Bindings Value}
  {maxSteps : Option Number} {path file : String} {es : List Exchange} {result : Except Abort Nat}
  {content : String}

theorem still_printReport (report : Option String) : (printReport report).Still := by
  cases report <;> exact trivial

theorem still_refuse (pretty : Bool) (code message : String) : (refuse pretty code message).Still :=
  Shell.Still.bind (still_printReport _) fun _ => trivial

theorem still_reject (pretty : Bool) (source : Option String) (ds : List Diagnostic) :
    (reject pretty source ds).Still := Shell.Still.bind (still_printReport _) fun _ => trivial

theorem still_complain {α : Type} (pretty : Bool) (code : String) (message : α → String) (l : List α) :
    (l.forM fun a => complain pretty code (message a)).Still := by
  induction l with
  | nil => exact trivial
  | cons a l ih => exact Shell.Still.bind (still_printReport _) fun _ => ih

theorem still_refuseInputs (pretty : Bool) (m : InputMismatch) : (refuseInputs pretty m).Still := by
  unfold refuseInputs
  split
  · exact still_refuse ..
  · exact still_refuse ..

theorem still_conclude (pretty : Bool) (report : Except Abort (Nat × String)) : (conclude pretty report).Still := by
  cases report with
  | ok report => exact trivial
  | error e => exact still_refuse ..

/-! ### Events in a file -/

/-- The line of an event, with the time at which it is written. -/
def eventLine (runId : String) (x : String × Event) : String :=
  (TraceLine.ofEvent x.1 runId x.2).json.compact ++ "\n"

/-- Events are written to a file, one after the other. -/
def writing (path runId : String) (timed : List (String × Event)) : List Exchange :=
  timed.flatMap fun x => [.time x.1, .append path (eventLine runId x)]

/-- The lines of events. -/
def traceText (runId : String) (timed : List (String × Event)) : String :=
  String.join (timed.map (eventLine runId))

theorem append_traceText_nil (content runId : String) : content ++ traceText runId [] = content :=
  String.append_empty

theorem append_traceText_cons (content runId : String) (x : String × Event) (timed : List (String × Event)) :
    content ++ traceText runId (x :: timed) = content ++ eventLine runId x ++ traceText runId timed := by
  rw [traceText, List.map_cons, String.join_cons, String.append_assoc]
  rfl

theorem runs_writeEvents {path runId : String} {events : List Event} {k : Unit → Shell Nat} :
    ((writeEvents path runId events).bind k).Runs es result ↔
      ∃ timed rest, timed.map Prod.snd = events ∧ es = writing path runId timed ++ rest ∧
        (k ()).Runs rest result := by
  induction events generalizing es with
  | nil =>
      refine ⟨fun h => ⟨[], es, rfl, rfl, h⟩, ?_⟩
      rintro ⟨timed, rest, htimed, rfl, h⟩
      obtain rfl := List.map_eq_nil_iff.mp htimed
      exact h
  | cons e events ih =>
      constructor
      · intro h
        cases h with
        | @time _ time _ _ h => cases h with
          | append h =>
              obtain ⟨timed, rest, htimed, rfl, hrest⟩ := ih.mp h
              exact ⟨(time, e) :: timed, rest, congrArg (e :: ·) htimed, rfl, hrest⟩
      · rintro ⟨timed, rest, htimed, rfl, hrest⟩
        obtain ⟨x, later, rfl, rfl, hlater⟩ := List.map_eq_cons_iff.mp htimed
        exact .time (.append (ih.mpr ⟨later, rest, hlater, rfl, hrest⟩))

/-- Written events stand behind what the file held. -/
theorem foldl_writing (runId : String) (timed : List (String × Event)) (content : String) :
    (writing path runId timed).foldl (Exchange.write path) (some content) =
      some (content ++ traceText runId timed) := by
  induction timed generalizing content with
  | nil => exact congrArg some (append_traceText_nil ..).symm
  | cons x timed ih =>
    rw [append_traceText_cons, ← ih, ← Exchange.write_append]
    rfl

/-- What a trace file holds: nothing if the unit refuses its inputs, and else all events, in order. -/
def Traced (unit : CompiledUnit) (inputs : Bindings Value) (maxSteps : Option Number) (content : String) :
    Prop :=
  (∃ mismatch, unit.run inputs maxSteps = .error mismatch ∧ content = "") ∨
    ∃ ended w runId timed, unit.run inputs maxSteps = .ok (ended, w) ∧
      timed.map Prod.snd = w.trace.toList.map Prod.snd ∧ content = traceText runId timed

/-- Events are written behind what the file holds. -/
theorem leaves_writeEvents {α : Type} {P : Option String → Prop} {k : Unit → Shell α} {runId content : String}
    {events : List Event} (hk : ∀ timed, timed.map Prod.snd = events →
      (k ()).Leaves path P (some (content ++ traceText runId timed))) :
    ((writeEvents path runId events).bind k).Leaves path P (some content) := by
  induction events generalizing content with
  | nil => exact append_traceText_nil content runId ▸ hk [] rfl
  | cons e events ih =>
    intro time
    show Shell.Leaves path P (Exchange.write path (some content) (.append path (eventLine runId (time, e)))) _
    rw [Exchange.write_append]
    refine ih fun timed htimed => ?_
    rw [← append_traceText_cons]
    exact hk _ (congrArg (e :: ·) htimed)

/-- Once the trace file is made, it gets what it is to hold. -/
theorem leaves_runUnit : (runUnit o unit inputs maxSteps (some path)).Leaves path
    (fun content => ∀ t ∈ content, Traced unit inputs maxSteps t) (some "") := by
  unfold runUnit
  split
  · next mismatch hrun =>
    refine (still_refuseInputs ..).leaves fun t ht => .inl ⟨mismatch, hrun, ?_⟩
    cases ht
    rfl
  · next ended w hrun =>
    intro runId
    refine leaves_writeEvents fun timed htimed => (still_conclude ..).leaves fun t ht =>
      .inr ⟨ended, w, runId, timed, hrun, htimed, ?_⟩
    rw [String.empty_append] at ht
    exact (Option.some.inj ht).symm

/-- Without a trace file nothing is written. -/
theorem still_runUnit : (runUnit o unit inputs maxSteps none).Still := by
  unfold runUnit
  split
  · exact still_refuseInputs ..
  · exact still_conclude ..

theorem leaves_runChecked (ht : o.trace = some path) : (runChecked p o unit).Leaves path
    (fun content => ∀ t ∈ content, ∃ config inputs maxSteps, limit o config = .ok maxSteps ∧
      (∀ n ∈ maxSteps, n.IsLimit) ∧ Inputs.parse o.inputs = .ok inputs ∧ Traced unit inputs maxSteps t) none := by
  refine (Settings.still_choose ..).leaves_bind nofun fun _ settings hfound => ?_
  obtain ⟨_, hfinds, hsettings⟩ := Settings.runs_find.mp hfound
  cases hsettings
  refine (still_complain ..).leaves_bind nofun fun _ _ _ => ?_
  split
  · exact (still_refuse ..).leaves nofun
  · exact (still_refuse ..).leaves nofun
  · next maxSteps inputs hlimit hinputs =>
    by_cases hpath : path = ""
    · have hnone : o.trace.filter (· ≠ "") = none := by rw [ht, hpath]; rfl
      rw [hnone]
      exact still_runUnit.leaves nofun
    · have hsome : o.trace.filter (· ≠ "") = some path := by
        rw [ht, Option.filter_some, if_pos (decide_eq_true hpath)]
      rw [hsome]
      intro made
      cases made with
      | false =>
        have hwrite : Exchange.write path none (.create path false) = none := by simp [Exchange.write]
        rw [hwrite]
        exact (still_refuse ..).leaves nofun
      | true =>
        have hwrite : Exchange.write path none (.create path true) = some "" := by
          simp [Exchange.write]
        rw [hwrite]
        exact leaves_runUnit.mono fun content h t ht =>
          ⟨settings.config, inputs, maxSteps, hlimit, (limit_eq_ok_iff.mp hlimit).isLimit hfinds.isLimit, hinputs,
            h t ht⟩

theorem leaves_runContents (ht : o.trace = some path) (name : String) (contents : Contents) :
    (runContents p o name contents).Leaves path (fun content => ∀ t ∈ content,
      ∃ unit config inputs maxSteps, Passes name contents unit ∧ limit o config = .ok maxSteps ∧
        (∀ n ∈ maxSteps, n.IsLimit) ∧ Inputs.parse o.inputs = .ok inputs ∧
        Traced unit inputs maxSteps t) none := by
  unfold runContents
  split
  · next text =>
    split
    · exact (still_reject ..).leaves nofun
    · next unit hload =>
      split
      · next hvalid =>
        refine (leaves_runChecked ht).mono fun content h t ht => ?_
        obtain ⟨config, inputs, maxSteps, hrest⟩ := h t ht
        exact ⟨unit, config, inputs, maxSteps, ⟨text, rfl, hload, hvalid⟩, hrest⟩
      · exact (still_reject ..).leaves nofun
  · exact (still_refuse ..).leaves nofun

/-- **The trace file of a run** holds what the unit in its input wrote. -/
theorem left_run (hr : (run p file o).Runs es result) (ht : o.trace = some path)
    (hc : Exchange.left path es = some content) : ∃ text unit config inputs maxSteps,
      (if file = "-" then .input text else .read file (.text text)) ∈ es ∧
        Passes (if file = "-" then "<stdin>" else file) (.text text) unit ∧
        limit o config = .ok maxSteps ∧ (∀ n ∈ maxSteps, n.IsLimit) ∧
        Inputs.parse o.inputs = .ok inputs ∧ Traced unit inputs maxSteps content := by
  unfold run at hr
  by_cases hfile : file = "-"
  · simp only [if_pos hfile] at hr ⊢
    cases hr with
    | @input _ text es' _ h =>
      obtain ⟨unit, config, inputs, maxSteps, hrest⟩ :=
        (leaves_runContents ht _ _).of_runs h content hc
      exact ⟨text, unit, config, inputs, maxSteps, List.mem_cons_self .., hrest⟩
  · simp only [if_neg hfile] at hr ⊢
    cases hr with
    | @read _ _ contents es' _ h =>
      obtain ⟨unit, config, inputs, maxSteps, hpass, hrest⟩ :=
        (leaves_runContents ht _ _).of_runs h content hc
      obtain ⟨text, rfl, -⟩ := id hpass
      exact ⟨text, unit, config, inputs, maxSteps, List.mem_cons_self .., hpass, hrest⟩

end Command

end Coroutines
