import Coroutines.Command.Sandbox

/-!
# Commands and their surroundings

A command makes requests and goes on with the answers.  What it and its surroundings exchanged, up to its end,
is a list (`Shell.Runs`), and the surroundings may answer anything: those in memory are one example
(`Shell.runs_perform`).
-/

namespace Coroutines

/-- A request of a command, with its answer. -/
inductive Exchange where
  | read (path : String) (contents : Contents)
  | input (text : String)
  | create (path : String) (made : Bool)
  | append (path text : String)
  | runId (runId : String)
  | time (time : String)
  | print (channel : Channel) (text : String)

namespace Shell

variable {α γ : Type}

/-- A command ends with a result, after some exchanges with its surroundings. -/
inductive Runs : Shell α → List Exchange → Except Abort α → Prop
  | done (result : Except Abort α) : Runs (.done result) [] result
  | read {path : String} {next : Contents → Shell α} {contents : Contents} {es : List Exchange}
      {result : Except Abort α} (h : Runs (next contents) es result) :
      Runs (.read path next) (.read path contents :: es) result
  | input {next : String → Shell α} {text : String} {es : List Exchange} {result : Except Abort α}
      (h : Runs (next text) es result) : Runs (.input next) (.input text :: es) result
  | create {path : String} {next : Bool → Shell α} {made : Bool} {es : List Exchange}
      {result : Except Abort α} (h : Runs (next made) es result) :
      Runs (.create path next) (.create path made :: es) result
  | append {path text : String} {next : Shell α} {es : List Exchange} {result : Except Abort α}
      (h : Runs next es result) : Runs (.append path text next) (.append path text :: es) result
  | runId {next : String → Shell α} {runId : String} {es : List Exchange} {result : Except Abort α}
      (h : Runs (next runId) es result) : Runs (.runId next) (.runId runId :: es) result
  | time {next : String → Shell α} {time : String} {es : List Exchange} {result : Except Abort α}
      (h : Runs (next time) es result) : Runs (.time next) (.time time :: es) result
  | print {channel : Channel} {text : String} {next : Shell α} {es : List Exchange}
      {result : Except Abort α} (h : Runs next es result) :
      Runs (.print channel text next) (.print channel text :: es) result

variable {x : Shell α} {es : List Exchange} {result : Except Abort α}

@[simp] theorem runs_done {r : Except Abort α} : (Shell.done r).Runs es result ↔ es = [] ∧ result = r := by
  refine ⟨fun h => ?_, ?_⟩
  · cases h
    exact ⟨rfl, rfl⟩
  · rintro ⟨rfl, rfl⟩
    exact .done result

theorem runs_read {path : String} {next : Contents → Shell α} : (Shell.read path next).Runs es result ↔
    ∃ contents rest, es = .read path contents :: rest ∧ (next contents).Runs rest result := by
  refine ⟨fun h => ?_, ?_⟩
  · cases h with
    | read h => exact ⟨_, _, rfl, h⟩
  · rintro ⟨contents, rest, rfl, h⟩
    exact .read h

theorem runs_read_cons {path : String} {next : Contents → Shell α} {contents : Contents} {rest : List Exchange} :
    (Shell.read path next).Runs (.read path contents :: rest) result ↔ (next contents).Runs rest result := by
  refine ⟨fun h => ?_, .read⟩
  cases h with
  | read h => exact h

theorem runs_input_cons {next : String → Shell α} {text : String} {rest : List Exchange} :
    (Shell.input next).Runs (.input text :: rest) result ↔ (next text).Runs rest result := by
  refine ⟨fun h => ?_, .input⟩
  cases h with
  | input h => exact h

theorem runs_print {channel : Channel} {text : String} {next : Shell α} :
    (Shell.print channel text next).Runs es result ↔
      ∃ rest, es = .print channel text :: rest ∧ next.Runs rest result := by
  refine ⟨fun h => ?_, ?_⟩
  · cases h with
    | print h => exact ⟨_, rfl, h⟩
  · rintro ⟨rest, rfl, h⟩
    exact .print h

theorem bind_done_ok (a : α) (k : α → Shell γ) : (Shell.done (.ok a)).bind k = k a := rfl

/-- A command ends, and another one goes on from its result. -/
theorem runs_bind {k : α → Shell γ} {result : Except Abort γ} : (x.bind k).Runs es result ↔
    ∃ first before after, es = before ++ after ∧ x.Runs before first ∧
      ((Shell.done first).bind k).Runs after result := by
  constructor
  · -- each request of the command comes before those of the rest, and both are split at the same place
    have hcons : ∀ {x x' : Shell α} {e : Exchange} {es : List Exchange},
        (∀ {before first}, x.Runs before first → x'.Runs (e :: before) first) →
        (∃ first before after, es = before ++ after ∧ x.Runs before first ∧
          ((Shell.done first).bind k).Runs after result) →
        ∃ first before after, e :: es = before ++ after ∧ x'.Runs before first ∧
          ((Shell.done first).bind k).Runs after result := by
      rintro x x' e es hx ⟨first, before, after, rfl, hfirst, hafter⟩
      exact ⟨first, e :: before, after, rfl, hx hfirst, hafter⟩
    intro h
    induction x generalizing es with
    | done first => exact ⟨first, [], es, rfl, .done first, h⟩
    | read path next ih => cases h with | read h => exact hcons .read (ih _ h)
    | input next ih => cases h with | input h => exact hcons .input (ih _ h)
    | create path next ih => cases h with | create h => exact hcons .create (ih _ h)
    | append path text next ih => cases h with | append h => exact hcons .append (ih h)
    | runId next ih => cases h with | runId h => exact hcons .runId (ih _ h)
    | time next ih => cases h with | time h => exact hcons .time (ih _ h)
    | print channel text next ih => cases h with | print h => exact hcons .print (ih h)
  · rintro ⟨first, before, after, rfl, hfirst, hafter⟩
    induction hfirst with
    | done first => exact hafter
    | read _ ih => exact .read (ih hafter)
    | input _ ih => exact .input (ih hafter)
    | create _ ih => exact .create (ih hafter)
    | append _ ih => exact .append (ih hafter)
    | runId _ ih => exact .runId (ih hafter)
    | time _ ih => exact .time (ih hafter)
    | print _ ih => exact .print (ih hafter)

/-- A command carried out in memory runs. -/
theorem runs_perform (x : Shell α) (s : Sandbox) : ∃ es, x.Runs es (x.perform s).1 := by
  induction x generalizing s with
  | done result => exact ⟨[], .done result⟩
  | read path next ih => exact (ih _ s).imp' _ fun _ => .read
  | input next ih => exact (ih _ s).imp' _ fun _ => .input
  | create path next ih =>
      simp only [perform]
      split
      · next tree _ => exact (ih true { s with tree }).imp' _ fun _ => .create
      · exact (ih false s).imp' _ fun _ => .create
  | append path text next ih => exact (ih _).imp' _ fun _ => .append
  | runId next ih => exact (ih _ s).imp' _ fun _ => .runId
  | time next ih => exact (ih _ s).imp' _ fun _ => .time
  | print channel text next ih => exact (ih _).imp' _ fun _ => .print

/-! ### The results that a command may end with -/

/-- All values that a command can end with have a property, whatever it is answered. -/
def Only (P : α → Prop) : Shell α → Prop
  | .done (.ok a) => P a
  | .done (.error _) => True
  | .read _ next => ∀ contents, (next contents).Only P
  | .input next => ∀ text, (next text).Only P
  | .create _ next => ∀ made, (next made).Only P
  | .append _ _ next => next.Only P
  | .runId next => ∀ runId, (next runId).Only P
  | .time next => ∀ time, (next time).Only P
  | .print _ _ next => next.Only P

theorem Only.of_runs {P : α → Prop} {a : α} (h : x.Only P) (hr : x.Runs es (.ok a)) : P a := by
  generalize hresult : Except.ok a = result at hr
  induction hr with
  | done result =>
      subst hresult
      exact h
  | append _ ih => exact ih h hresult
  | print _ ih => exact ih h hresult
  | read _ ih => exact ih (h _) hresult
  | input _ ih => exact ih (h _) hresult
  | create _ ih => exact ih (h _) hresult
  | runId _ ih => exact ih (h _) hresult
  | time _ ih => exact ih (h _) hresult

theorem Only.bind {P : γ → Prop} {k : α → Shell γ} (hk : ∀ a, (k a).Only P) (x : Shell α) :
    (x.bind k).Only P := by
  induction x with
  | done result =>
      cases result with
      | ok a => exact hk a
      | error e => exact trivial
  | append path text next ih => exact ih
  | print channel text next ih => exact ih
  | _ => exact fun answer => by solve_by_elim

end Shell

end Coroutines
