import Coroutines.Script.Evaluation

/-!
# Arguments of builtins

Which calls a signature admits (`Signature.Accepts`), and what it refuses the others for
(`Signature.Mismatch`), in terms of the places of the arguments.  The check tells one from the other
(`Signature.check_exact`).  What a signature guards is done exactly for the calls that are admitted; a call that
is refused makes no request, so it leaves every world as it was.
-/

namespace Coroutines

namespace Signature

variable {sig : Signature} {args : List Value} {kwargs : Bindings Value} {f : Failure}

/-! ### Calls that a signature admits -/

/-- A number of arguments is neither too small nor too large; with a rest shape none is too large. -/
def Counts (sig : Signature) (given : Nat) : Prop :=
  sig.required.getD sig.params.length ≤ given ∧ (sig.rest = none → given ≤ sig.params.length)

/-- The shape of a place: that of the parameter there, or the rest shape after the last parameter. -/
inductive Shapes (sig : Signature) (i : Nat) (shape : ParamShape) : Prop
  | param (h : sig.params[i]? = some shape)
  | rest (hi : sig.params.length ≤ i) (h : sig.rest = some shape)

/-- The kind of an argument has every capability that is required at its place. -/
def Suits (sig : Signature) (i : Nat) (arg : Value) : Prop :=
  ∀ shape, sig.Shapes i shape → ∀ c, shape.requires = some c → c ∈ arg.kind.capabilities

/-- A call fits the signature. -/
structure Accepts (sig : Signature) (args : List Value) (kwargs : Bindings Value) : Prop where
  count : sig.Counts args.length
  keywords : ∀ k ∈ kwargs.names, k ∈ sig.keywords
  arguments : ∀ i v, args[i]? = some v → sig.Suits i v

/-- The first thing that is wrong with a call: the number of arguments, then the first keyword that is not
declared, then the first argument that lacks a capability. -/
inductive Mismatch (sig : Signature) (args : List Value) (kwargs : Bindings Value) : Failure → Prop
  | arity (h : ¬ sig.Counts args.length) :
    Mismatch sig args kwargs (.arity sig.name (sig.required.getD sig.params.length)
      (if sig.rest.isSome then none else some sig.params.length) args.length sig.arityMessage)
  | keyword (hcount : sig.Counts args.length) {before after : List String} {k : String}
      (hnames : kwargs.names = before ++ k :: after) (hbefore : ∀ b ∈ before, b ∈ sig.keywords)
      (hk : k ∉ sig.keywords) : Mismatch sig args kwargs (.unexpectedKeyword sig.name k)
  | argument (hcount : sig.Counts args.length) (hkeywords : ∀ k ∈ kwargs.names, k ∈ sig.keywords)
      {i : Nat} {v : Value} {shape : ParamShape} {c : Capability} (hv : args[i]? = some v)
      (hshape : sig.Shapes i shape) (hc : shape.requires = some c) (hlacks : c ∉ v.kind.capabilities)
      (hbefore : ∀ j u, j < i → args[j]? = some u → sig.Suits j u) :
    Mismatch sig args kwargs (.argumentShape v.kind.name c)

/-! ### The parts of the check -/

theorem admits_iff {given : Nat} : sig.admits given = true ↔ sig.Counts given := by
  unfold admits minimum maximum? Counts
  cases sig.rest with
  | none => simp
  | some shape => simp

theorem shapeAt?_eq_some_iff {i : Nat} {shape : ParamShape} :
    sig.shapeAt? i = some shape ↔ sig.Shapes i shape := by
  unfold shapeAt?
  cases hparam : sig.params[i]? with
  | some p =>
      refine ⟨fun h => .param (hparam.trans h), fun h => ?_⟩
      cases h with
      | param h => exact hparam.symm.trans h
      | rest hi => rw [List.getElem?_eq_none hi] at hparam; cases hparam
  | none =>
      refine ⟨fun h => .rest (List.getElem?_eq_none_iff.mp hparam) h, fun h => ?_⟩
      cases h with
      | param h => rw [hparam] at h; cases h
      | rest _ h => exact h

theorem argFailure?_eq_none_iff {i : Nat} {v : Value} :
    argFailure? (sig.shapeAt? i) v = none ↔ sig.Suits i v := by
  simp only [Suits, ← shapeAt?_eq_some_iff]
  unfold argFailure?
  cases hshape : sig.shapeAt? i with
  | none => simp
  | some shape =>
      cases hc : shape.requires with
      | none => simp [hc]
      | some c => simp [hc, Value.supports]

/-- An argument is refused for a capability that its place requires and its kind lacks. -/
theorem argFailure?_eq_some_iff {i : Nat} {v : Value} : argFailure? (sig.shapeAt? i) v = some f ↔
    ∃ shape c, sig.Shapes i shape ∧ shape.requires = some c ∧ c ∉ v.kind.capabilities ∧
      f = .argumentShape v.kind.name c := by
  simp only [← shapeAt?_eq_some_iff]
  unfold argFailure?
  cases hshape : sig.shapeAt? i with
  | none => simp
  | some shape =>
      cases hc : shape.requires with
      | none => simp [hc]
      | some c => simp [hc, Value.supports, Value.kindName, eq_comm]

/-- The first keyword that is not declared. -/
theorem find?_keywords_eq_some_iff {k : String} :
    kwargs.names.find? (!sig.keywords.contains ·) = some k ↔ ∃ before after,
      kwargs.names = before ++ k :: after ∧ (∀ b ∈ before, b ∈ sig.keywords) ∧ k ∉ sig.keywords := by
  rw [List.find?_eq_some_iff_append]
  simp only [Bool.not_eq_true', Bool.not_not, List.contains_eq_mem, decide_eq_false_iff_not,
    decide_eq_true_eq]
  constructor
  · rintro ⟨hk, before, after, hnames, hbefore⟩
    exact ⟨before, after, hnames, hbefore, hk⟩
  · rintro ⟨before, after, hnames, hbefore, hk⟩
    exact ⟨hk, before, after, hnames, hbefore⟩

theorem find?_keywords_eq_none_iff : kwargs.names.find? (!sig.keywords.contains ·) = none ↔
    ∀ k ∈ kwargs.names, k ∈ sig.keywords := by
  simp [List.find?_eq_none]

end Signature

/-- Items that are looked at with their places, from the first one on: what is found is found at the first
place that gives something. -/
theorem List.findSome?_zipIdx_eq_some_iff {α β : Type} {g : α → Nat → Option β} {l : List α} {k : Nat}
    {b : β} : (l.zipIdx k).findSome? (fun p => g p.1 p.2) = some b ↔
      ∃ i a, l[i]? = some a ∧ g a (k + i) = some b ∧ ∀ j u, j < i → l[j]? = some u → g u (k + j) = none := by
  induction l generalizing k with
  | nil => simp
  | cons a rest ih =>
      rw [List.zipIdx_cons, List.findSome?_cons]
      cases ha : g a k with
      | some c =>
          constructor
          · rintro ⟨⟩
            exact ⟨0, a, rfl, ha, fun j u hj => absurd hj (Nat.not_lt_zero j)⟩
          · rintro ⟨i, v, hv, hb, hbefore⟩
            cases i with
            | zero => cases hv; exact ha.symm.trans hb
            | succ i => cases ha.symm.trans (hbefore 0 a (Nat.succ_pos i) rfl)
      | none =>
          rw [ih]
          constructor
          · rintro ⟨i, v, hv, hb, hbefore⟩
            refine ⟨i + 1, v, hv, by rwa [← Nat.succ_add_eq_add_succ], fun j u hj hu => ?_⟩
            cases j with
            | zero => cases hu; exact ha
            | succ j =>
                rw [← Nat.succ_add_eq_add_succ]
                exact hbefore j u (Nat.lt_of_succ_lt_succ hj) hu
          · rintro ⟨i, v, hv, hb, hbefore⟩
            cases i with
            | zero => cases hv; cases ha.symm.trans hb
            | succ i =>
                refine ⟨i, v, hv, by rwa [Nat.succ_add_eq_add_succ], fun j u hj hu => ?_⟩
                rw [Nat.succ_add_eq_add_succ]
                exact hbefore (j + 1) u (Nat.succ_lt_succ hj) hu

namespace Signature

variable {sig : Signature} {args : List Value} {kwargs : Bindings Value} {f : Failure}

theorem findSome?_args_eq_some_iff :
    args.zipIdx.findSome? (fun (v, i) => argFailure? (sig.shapeAt? i) v) = some f ↔
      ∃ i v, args[i]? = some v ∧ argFailure? (sig.shapeAt? i) v = some f ∧
        ∀ j u, j < i → args[j]? = some u → sig.Suits j u := by
  simp only [← argFailure?_eq_none_iff]
  have h := List.findSome?_zipIdx_eq_some_iff (g := fun v i => argFailure? (sig.shapeAt? i) v)
    (l := args) (k := 0) (b := f)
  simpa only [Nat.zero_add] using h

theorem findSome?_args_eq_none_iff :
    args.zipIdx.findSome? (fun (v, i) => argFailure? (sig.shapeAt? i) v) = none ↔
      ∀ i v, args[i]? = some v → sig.Suits i v := by
  simp only [← argFailure?_eq_none_iff, List.findSome?_eq_none_iff, Prod.forall,
    List.mk_mem_zipIdx_iff_getElem?]
  exact forall_comm

/-! ### The check -/

theorem check_of_not_counts (h : ¬ sig.Counts args.length) : sig.check args kwargs =
    some (.arity sig.name sig.minimum sig.maximum? args.length sig.arityMessage) := by
  rw [← admits_iff, Bool.not_eq_true] at h
  rw [check, h]
  rfl

theorem check_of_keyword (hcount : sig.Counts args.length) {k : String}
    (h : kwargs.names.find? (!sig.keywords.contains ·) = some k) :
    sig.check args kwargs = some (.unexpectedKeyword sig.name k) := by
  rw [check, admits_iff.mpr hcount, h]
  rfl

theorem check_of_keywords (hcount : sig.Counts args.length)
    (h : kwargs.names.find? (!sig.keywords.contains ·) = none) : sig.check args kwargs =
      args.zipIdx.findSome? fun (v, i) => argFailure? (sig.shapeAt? i) v := by
  rw [check, admits_iff.mpr hcount, h]
  rfl

/-- The check accepts the calls that fit. -/
theorem check_eq_none_iff : sig.check args kwargs = none ↔ sig.Accepts args kwargs := by
  by_cases hcount : sig.Counts args.length
  · cases hkeywords : kwargs.names.find? (!sig.keywords.contains ·) with
    | some k =>
        obtain ⟨before, after, hnames, -, hk⟩ := find?_keywords_eq_some_iff.mp hkeywords
        rw [check_of_keyword hcount hkeywords]
        refine iff_of_false nofun fun h => hk (h.keywords k ?_)
        rw [hnames]
        exact List.mem_append_right _ List.mem_cons_self
    | none =>
        rw [check_of_keywords hcount hkeywords, findSome?_args_eq_none_iff]
        exact ⟨fun h => ⟨hcount, find?_keywords_eq_none_iff.mp hkeywords, h⟩, Accepts.arguments⟩
  · rw [check_of_not_counts hcount]
    exact iff_of_false nofun fun h => hcount h.count

/-- A call that is refused is refused for the first thing that is wrong with it. -/
theorem mismatch_of_check (h : sig.check args kwargs = some f) : sig.Mismatch args kwargs f := by
  by_cases hcount : sig.Counts args.length
  · cases hkeywords : kwargs.names.find? (!sig.keywords.contains ·) with
    | some k =>
        obtain ⟨before, after, hnames, hbefore, hk⟩ := find?_keywords_eq_some_iff.mp hkeywords
        cases (check_of_keyword hcount hkeywords).symm.trans h
        exact .keyword hcount hnames hbefore hk
    | none =>
        rw [check_of_keywords hcount hkeywords] at h
        obtain ⟨i, v, hv, hf, hbefore⟩ := findSome?_args_eq_some_iff.mp h
        obtain ⟨shape, c, hshape, hc, hlacks, rfl⟩ := argFailure?_eq_some_iff.mp hf
        exact .argument hcount (find?_keywords_eq_none_iff.mp hkeywords) hv hshape hc hlacks hbefore
  · cases (check_of_not_counts hcount).symm.trans h
    exact .arity hcount

theorem Mismatch.check (h : sig.Mismatch args kwargs f) : sig.check args kwargs = some f := by
  cases h with
  | arity hcount => exact check_of_not_counts hcount
  | keyword hcount hnames hbefore hk =>
      exact check_of_keyword hcount (find?_keywords_eq_some_iff.mpr ⟨_, _, hnames, hbefore, hk⟩)
  | argument hcount hkeywords hv hshape hc hlacks hbefore =>
      rw [check_of_keywords hcount (find?_keywords_eq_none_iff.mpr hkeywords)]
      exact findSome?_args_eq_some_iff.mpr
        ⟨_, _, hv, argFailure?_eq_some_iff.mpr ⟨_, _, hshape, hc, hlacks, rfl⟩, hbefore⟩

/-- Kinds with the same capabilities are judged alike, whatever they are called. -/
theorem Accepts.of_capabilities {others : List Value}
    (hsame : args.map (·.kind.capabilities) = others.map (·.kind.capabilities))
    (h : sig.Accepts args kwargs) : sig.Accepts others kwargs where
  count := by
    have hlength := congrArg List.length hsame
    rw [List.length_map, List.length_map] at hlength
    exact hlength ▸ h.count
  keywords := h.keywords
  arguments i v hv := by
    have hat := congrArg (·[i]?) hsame
    simp only [List.getElem?_map, hv, Option.map_some] at hat
    obtain ⟨u, hu, hcapabilities⟩ := Option.map_eq_some_iff.mp hat
    intro shape hshape c hc
    rw [← hcapabilities]
    exact h.arguments i u hu shape hshape c hc

/-- **Arguments are checked exactly.**  For any signature, arguments and keywords:

* the check finds nothing exactly if the call fits: the number of arguments lies between the bounds, every
  keyword is declared and every argument supports what its place requires;
* else it finds the first mismatch, and only that;
* work that the signature guards, whatever it is, is done exactly if the check finds nothing; if it finds a
  failure, all that happens is that failure, and every world is left as it was;
* every builtin of the signature is its work, so guarded;
* what a kind is called and what its values yield is of no account: calls whose arguments have the same
  capabilities are both accepted or both refused, and a value of a kind that the host declares suits a place
  exactly if what is required there has been declared. -/
theorem check_exact (sig : Signature) (args : List Value) (kwargs : Bindings Value) :
    (sig.check args kwargs = none ↔ sig.Accepts args kwargs) ∧
    (∀ f, sig.check args kwargs = some f ↔ sig.Mismatch args kwargs f) ∧
    (∀ work : Script Value, (sig.check args kwargs = none → sig.guard args kwargs work = work) ∧
      ∀ f, sig.check args kwargs = some f → sig.guard args kwargs work = .abort (.raise f) ∧
        ∀ (runner : Runner Body Globals) (w : World Body Globals),
          (sig.guard args kwargs work).perform runner w = (.error (.raise f), w)) ∧
    (∀ (b : Builtin) (call : Calls), b.signature = sig →
      b.invoke call args kwargs = sig.guard args kwargs (b.execute call kwargs args)) ∧
    (∀ others : List Value, args.map (·.kind.capabilities) = others.map (·.kind.capabilities) →
      (sig.check args kwargs = none ↔ sig.check others kwargs = none)) ∧
    ∀ i identity kind capabilities items, sig.Suits i (.object identity kind capabilities items) ↔
      ∀ shape, sig.Shapes i shape → ∀ c, shape.requires = some c → c ∈ capabilities := by
  refine ⟨check_eq_none_iff, fun f => ⟨mismatch_of_check, Mismatch.check⟩, fun work => ⟨?_, ?_⟩,
    fun b call hb => hb ▸ rfl, fun others hsame => ?_, fun i identity kind capabilities items => .rfl⟩
  · intro hnone
    rw [guard, hnone]
  · intro f hf
    have hguard : sig.guard args kwargs work = .abort (.raise f) := by rw [guard, hf]
    exact ⟨hguard, fun runner w => by rw [hguard]; rfl⟩
  · rw [check_eq_none_iff, check_eq_none_iff]
    exact ⟨.of_capabilities hsame, .of_capabilities hsame.symm⟩

/-- `map(abs, 42)` is refused: what comes after the function must be iterable. -/
theorem check_map_int : Builtin.map.invoke (fun _ _ _ => .abort .outOfFuel)
    [.builtin .abs, .int (.ofNat 42)] [] = .abort (.raise (.argumentShape "int" .iterable)) := by
  have h : Builtin.map.signature.check [.builtin .abs, .int (.ofNat 42)] [] =
      some (.argumentShape "int" .iterable) := rfl
  obtain ⟨-, -, hguard, hinvoke, -⟩ := check_exact Builtin.map.signature [.builtin .abs, .int (.ofNat 42)] []
  exact (hinvoke .map _ rfl).trans ((hguard _).2 _ h).1

end Signature

end Coroutines
