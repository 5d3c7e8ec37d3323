import Coroutines.Proofs.Checked.Runs
import Coroutines.Proofs.Erasure.Simulation
import Coroutines.Proofs.Tracebacks.Deliveries
import Coroutines.Proofs.Tracebacks.Requests
import Coroutines.Proofs.Tracebacks.Scopes

/-!
# One frame for each live scope

The work of a checked unit raises exceptions with a frame for each scope that was live: evaluation puts
the frame of the scope outside those of a call that failed, once, and a part that fails ends the whole.
The proof follows the work through its parts, in worlds in which scripts can be at work
(`CompiledUnit.Fit`), by induction on expressions, on statements, and on how deep calls nest.
-/

namespace Coroutines

/-- A world in which scripts of a checked unit are at work. -/
structure CompiledUnit.Fit (unit : CompiledUnit) (w : World Body Globals) : Prop where
  lawful : w.Lawful unit.law
  sound : ∃ l base, w.Sound l base none

/-- Work that upholds the law of a unit and asks for what scripts ask for stays in worlds in which scripts
can be at work. -/
def CompiledUnit.Hosts (unit : CompiledUnit) (runner : Runner Body Globals) : Prop :=
  ∀ {α : Type} {x : Script α} {post : α → Prop} {err : Record → Prop} {w w' : World Body Globals} {a : α},
    unit.Fit w → x.Upholds unit.law post err → x.masked.Orderly → x.perform runner w = (.ok a, w') →
      post a ∧ unit.Fit w'

/-- The exceptions of some work have the frames of the scopes `outer`, and then of those that were live. -/
structure Tells (unit : CompiledUnit) (runner : Runner Body Globals) {α : Type} (outer : List String)
    (x : Script α) (scopes : LiveScopes) : Prop where
  escaped : ∀ {w : World Body Globals} {r : Record}, unit.Fit w →
    (x.perform runner w).1 = .error (.script r) → r.scopes = outer ++ scopes w

/-- Calls raise exceptions with the frames of the scopes inside them. -/
structure Calling.Faithful (unit : CompiledUnit) (k : Calling) : Prop where
  hosts : unit.Hosts k.runner
  uphold : unit.CallsUphold k.call
  orderly : Calls.Orderly k.call
  tells : ∀ {fn : Value} {args : List Value} {kwargs : Bindings Value}, fn.Known unit.Owns →
    (∀ v ∈ args, v.Known unit.Owns) → kwargs.All (Value.Known unit.Owns) →
    Tells unit k.runner [] (k.call fn args kwargs) (k.scopes fn args kwargs)

theorem Calling.follow_nil (k : Calling) {α : Type} (x : Script α) :
    k.follow x (fun _ => []) (fun _ _ => []) = fun _ => [] := by
  funext w
  unfold follow
  split <;> rfl

namespace Tells

variable {unit : CompiledUnit} {runner : Runner Body Globals} {k : Calling} {α γ : Type}
  {outer : List String} {scopes : LiveScopes}

theorem value (a : α) : Tells unit runner outer (.done (.ok a)) scopes := ⟨fun _ e => by cases e⟩

/-- An error of the host is no exception of the script. -/
theorem host (message : String) :
    Tells unit runner outer (.abort (.host message) : Script α) scopes := ⟨fun _ e => by cases e⟩

theorem tooLarge : Tells unit runner outer (.abort .tooLarge : Script α) scopes := ⟨fun _ e => by cases e⟩

theorem raise {r : Record} (h : r.scopes = outer) :
    Tells unit runner outer (.raise r : Script α) fun _ => [] where
  escaped _ e := by
    cases e
    simpa using h

/-- What the checks leave to the run fails without frames. -/
theorem ofExcept {post : α → Prop} {result : Except Abort α} (h : Dynamic post result) :
    Tells unit runner [] (.ofExcept result) fun _ => [] where
  escaped {w r} _ e := by
    obtain rfl : result = .error (.script r) := e
    obtain ⟨f, -, rfl⟩ := h
    rfl

/-- Some work fails with an exception where the work before what is left to do did. -/
theorem of_bind {x : Script α} {f : α → Script γ} {w : World Body Globals} {r : Record}
    (h : Tells unit runner outer x scopes) (hw : unit.Fit w)
    (e : ((x.bind f).perform runner w).1 = .error (.script r)) :
    (∃ e' w', x.perform runner w = (.error e', w') ∧ r.scopes = outer ++ scopes w) ∨
      ∃ a w', x.perform runner w = (.ok a, w') ∧ ((f a).perform runner w').1 = .error (.script r) := by
  rw [Action.perform_bind] at e
  rcases hx : x.perform runner w with ⟨e' | a, w'⟩ <;> rw [hx] at e
  · have hfailed : (Except.error e' : Except Abort γ) = .error (.script r) := e
    cases hfailed
    exact .inl ⟨_, w', rfl, h.escaped hw (congrArg Prod.fst hx)⟩
  · exact .inr ⟨a, w', rfl, e⟩

/-- The rest of some work, which ends with a value. -/
theorem map {x : Script α} (h : Tells unit runner outer x scopes) (f : α → γ) :
    Tells unit runner outer (x.bind fun a => .done (.ok (f a))) scopes where
  escaped hw e := by
    obtain ⟨_, _, _, hr⟩ | ⟨_, _, _, e⟩ := h.of_bind hw e
    · exact hr
    · cases e

theorem bind {x : Script α} {f : α → Script γ} {post : α → Prop} {err : Record → Prop}
    {first : LiveScopes} {rest : α → LiveScopes} (hosts : unit.Hosts k.runner)
    (h : Tells unit k.runner outer x first) (hup : x.Upholds unit.law post err)
    (ho : x.masked.Orderly) (hf : ∀ a, post a → Tells unit k.runner outer (f a) (rest a)) :
    Tells unit k.runner outer (x.bind f) (k.follow x first rest) where
  escaped hw e := by
    unfold Calling.follow
    obtain ⟨_, _, hx, hr⟩ | ⟨a, w', hx, e⟩ := h.of_bind hw e
    · rw [hx]
      exact hr
    · obtain ⟨ha, hw'⟩ := hosts hw hup ho hx
      rw [hx]
      exact (hf a ha).escaped hw' e

/-- Parts without a scope of their own make work without one. -/
theorem bind_nil {x : Script α} {f : α → Script γ} {post : α → Prop} {err : Record → Prop}
    (hosts : unit.Hosts k.runner) (h : Tells unit k.runner outer x fun _ => [])
    (hup : x.Upholds unit.law post err) (ho : x.masked.Orderly)
    (hf : ∀ a, post a → Tells unit k.runner outer (f a) fun _ => []) :
    Tells unit k.runner outer (x.bind f) fun _ => [] :=
  k.follow_nil x ▸ h.bind hosts hup ho hf

/-- Work goes on after a lawful change of what scripts share. -/
theorem modify {f : Globals → Globals} {x : Script α} (hosts : unit.Hosts runner)
    (hf : ∀ g, unit.law.shared g → unit.law.shared (f g)) (h : Tells unit runner outer x scopes) :
    Tells unit runner outer (.modify f x) fun w => scopes { w with shared := f w.shared } where
  escaped hw e := by
    have hchange : (Action.modify f (.done (.ok ())) : Script Unit).Upholds unit.law (fun _ => True)
      fun _ => True := ⟨hf, trivial⟩
    exact h.escaped (hosts hw hchange trivial rfl).2 e

/-- An exception that passes a frame. -/
theorem within {x : Script α} (h : Tells unit runner [] x scopes) (frame : CallFrame) :
    Tells unit runner [frame.site.name] (x.catchScript fun r => .raise (r.within frame)) scopes where
  escaped {w r} hw e := by
    rw [Action.perform_passed] at e
    rcases hx : x.perform runner w with ⟨e' | a, w'⟩ <;> rw [hx] at e
    · cases e' with
      | script r' =>
          cases e
          rw [Record.scopes_within, h.escaped hw (congrArg Prod.fst hx)]
          rfl
      | _ => cases e
    · cases e

end Tells

namespace Program

variable {unit : CompiledUnit} {owner : Option FunctionDecl} {scope : Scope} {k : Calling}

/-! ### Expressions -/

/-- A checked name without a value fails in its scope: the check has found a site for the frame. -/
theorem tells_name (hk : k.Faithful unit) (hs : scope.Checked unit owner) {enclosing own : Option Site}
    {name : String} (henclosing : unit.context.site? enclosing = [])
    (h : unit.context.name (CompiledUnit.ownNames owner) enclosing name own = []) :
    Tells unit k.runner [scope.name]
      ((Program.ofUnit unit).evalExpr k.call scope enclosing (.name name own)) fun _ => [] := by
  obtain ⟨⟨site, hat, -⟩, -⟩ := of_name_eq_nil rfl henclosing h
  have hlookup : Tells unit k.runner [scope.name] ((Program.ofUnit unit).lookup scope name)
      fun _ => [] := by
    unfold lookup
    split <;> exact ⟨fun _ e => by cases e⟩
  have hup : ((Program.ofUnit unit).lookup scope name).Upholds unit.law _ (Record.Framed unit) :=
    upholds_lookup hs name
  refine hlookup.bind_nil hk.hosts hup (orderly_lookup scope name) fun v _ => ?_
  cases v with
  | some v => exact .value v
  | none =>
      rw [hat]
      exact .raise rfl

/-- An operator fails in the scope of its expression. -/
theorem tells_apply {runner : Runner Body Globals} (op : BinaryOp) {a b : Value}
    (ha : a.Known unit.Owns) (hb : b.Known unit.Owns) (site : Site) :
    Tells unit runner [scope.name] (match op.apply a b with
      | .error (.script r) =>
        .raise (r.within ((Program.ofUnit unit).frame scope.name op.symbol [a, b] site))
      | result => .ofExcept result) fun _ => [] := by
  have happly := Dynamic.apply op ha hb
  rcases hr : op.apply a b with (r | _ | _ | _ | _) | v <;> rw [hr] at happly
  · obtain ⟨f, -, rfl⟩ := happly
    exact .raise rfl
  all_goals exact ⟨fun _ e => by cases e⟩

section

variable {γ : Type} {enclosing : Option Site} {outer : List String}

/-- Work goes on after an expression. -/
theorem evalExpr_bind (hu : unit.Checked) (hk : k.Faithful unit) (hs : scope.Checked unit owner)
    {e : Expr} (henclosing : unit.context.site? enclosing = [])
    (he : unit.context.expr (CompiledUnit.ownNames owner) enclosing e = [])
    (h : Tells unit k.runner outer ((Program.ofUnit unit).evalExpr k.call scope enclosing e)
      ((Program.ofUnit unit).exprScopes k scope enclosing e))
    {f : Value → Script γ} {rest : Value → LiveScopes}
    (hf : ∀ v, v.Known unit.Owns → Tells unit k.runner outer (f v) (rest v)) :
    Tells unit k.runner outer (((Program.ofUnit unit).evalExpr k.call scope enclosing e).bind f)
      (k.follow ((Program.ofUnit unit).evalExpr k.call scope enclosing e)
        ((Program.ofUnit unit).exprScopes k scope enclosing e) rest) :=
  h.bind hk.hosts (upholds_evalExpr hu hk.uphold hs e henclosing he)
    (orderly_evalExpr hk.orderly enclosing e) hf

/-- Work goes on after some expressions. -/
theorem evalExprs_bind (hu : unit.Checked) (hk : k.Faithful unit) (hs : scope.Checked unit owner)
    {es : List Expr} (henclosing : unit.context.site? enclosing = [])
    (hes : unit.context.exprs (CompiledUnit.ownNames owner) enclosing es = [])
    (h : Tells unit k.runner outer ((Program.ofUnit unit).evalExprs k.call scope enclosing es)
      ((Program.ofUnit unit).exprsScopes k scope enclosing es))
    {f : List Value → Script γ} {rest : List Value → LiveScopes}
    (hf : ∀ vs, (∀ v ∈ vs, v.Known unit.Owns) → Tells unit k.runner outer (f vs) (rest vs)) :
    Tells unit k.runner outer (((Program.ofUnit unit).evalExprs k.call scope enclosing es).bind f)
      (k.follow ((Program.ofUnit unit).evalExprs k.call scope enclosing es)
        ((Program.ofUnit unit).exprsScopes k scope enclosing es) rest) :=
  h.bind hk.hosts (upholds_evalExprs hu hk.uphold hs es henclosing hes)
    (orderly_evalExprs hk.orderly enclosing es) hf

end

mutual

/-- **An exception of an expression has the frame of its scope, and those of the call that failed, if one
did.** -/
theorem tells_evalExpr (hu : unit.Checked) (hk : k.Faithful unit) (hs : scope.Checked unit owner) :
    ∀ {enclosing : Option Site} (e : Expr), unit.context.site? enclosing = [] →
    unit.context.expr (CompiledUnit.ownNames owner) enclosing e = [] →
    Tells unit k.runner [scope.name] ((Program.ofUnit unit).evalExpr k.call scope enclosing e)
      ((Program.ofUnit unit).exprScopes k scope enclosing e)
  | _, .const value float, _, _ => .value _
  | _, .name _ _, henclosing, h => tells_name hk hs henclosing h
  | _, .list elements, henclosing, h => (tells_evalExprs hu hk hs elements henclosing h).map _
  | _, .tuple elements, henclosing, h => (tells_evalExprs hu hk hs elements henclosing h).map _
  | _, .binary op left right site, _, h => by
      simp only [CheckContext.expr, List.append_eq_nil_iff] at h
      obtain ⟨⟨hsite, hleft⟩, hright⟩ := h
      have hhere : unit.context.site? (some site) = [] := hsite
      exact evalExpr_bind hu hk hs hhere hleft (tells_evalExpr hu hk hs left hhere hleft) fun a ha =>
        evalExpr_bind hu hk hs hhere hright (tells_evalExpr hu hk hs right hhere hright) fun b hb =>
          tells_apply op ha hb site
  | _, .call callee args keywords site, _, h => by
      obtain ⟨hsite, hcallee, hargs, hkeywords⟩ := of_call_eq_nil h
      have hhere : unit.context.site? (some site) = [] := hsite
      have hcalled : ∀ {fn : Value} {vs : List Value} {kwargs : Bindings Value},
          fn.Known unit.Owns → (∀ v ∈ vs, v.Known unit.Owns) → kwargs.All (Value.Known unit.Owns) →
          Tells unit k.runner [scope.name] ((k.call fn vs kwargs).catchScript fun r => .raise (r.within
            ((Program.ofUnit unit).frame scope.name (operation fn) vs site))) (k.scopes fn vs kwargs) :=
        fun {fn vs _} hfn hvs hkwargs => (hk.tells hfn hvs hkwargs).within
          ((Program.ofUnit unit).frame scope.name (operation fn) vs site)
      cases keywords with
      | none =>
          exact evalExpr_bind hu hk hs hhere hcallee (tells_evalExpr hu hk hs callee hhere hcallee)
            fun fn hfn => evalExprs_bind hu hk hs hhere hargs (tells_evalExprs hu hk hs args hhere hargs)
              fun vs hvs => hcalled hfn hvs .nil
      | some ks =>
          have hnew : ∀ x, Bindings.has ([] : Bindings Value) x = true → x ∈ ([] : List String) :=
            fun _ h => by cases h
          exact evalExpr_bind hu hk hs hhere hcallee (tells_evalExpr hu hk hs callee hhere hcallee)
            fun fn hfn => evalExprs_bind hu hk hs hhere hargs (tells_evalExprs hu hk hs args hhere hargs)
              fun vs hvs => .bind hk.hosts
                (tells_evalKeywords hu hk hs ks hsite .nil hnew (hkeywords ks rfl))
                (upholds_evalKeywords hu hk.uphold hs ks hsite .nil hnew (hkeywords ks rfl))
                (orderly_evalKeywords hk.orderly site [] ks) fun _ hkwargs => hcalled hfn hvs hkwargs

theorem tells_evalExprs (hu : unit.Checked) (hk : k.Faithful unit) (hs : scope.Checked unit owner) :
    ∀ {enclosing : Option Site} (es : List Expr), unit.context.site? enclosing = [] →
    unit.context.exprs (CompiledUnit.ownNames owner) enclosing es = [] →
    Tells unit k.runner [scope.name] ((Program.ofUnit unit).evalExprs k.call scope enclosing es)
      ((Program.ofUnit unit).exprsScopes k scope enclosing es)
  | _, [], _, _ => .value _
  | _, e :: rest, henclosing, h => by
      simp only [CheckContext.exprs, List.append_eq_nil_iff] at h
      exact evalExpr_bind hu hk hs henclosing h.1 (tells_evalExpr hu hk hs e henclosing h.1) fun _ _ =>
        (tells_evalExprs hu hk hs rest henclosing h.2).map _

/-- The keywords bound so far are among those that the check has seen. -/
theorem tells_evalKeywords (hu : unit.Checked) (hk : k.Faithful unit) (hs : scope.Checked unit owner) :
    ∀ {site : Site} {bound : Bindings Value} {seen : List String} (ks : List (String × Expr)),
    unit.context.site site = [] → bound.All (Value.Known unit.Owns) →
    (∀ x, bound.has x = true → x ∈ seen) →
    unit.context.keywordArgs (CompiledUnit.ownNames owner) site seen ks = [] →
    Tells unit k.runner [scope.name] ((Program.ofUnit unit).evalKeywords k.call scope site bound ks)
      ((Program.ofUnit unit).keywordsScopes k scope site bound ks)
  | _, _, _, [], _, _, _, _ => .value _
  | site, bound, seen, (x, e) :: rest, hsite, hb, hseen, h => by
      simp only [CheckContext.keywordArgs, List.append_eq_nil_iff] at h
      obtain ⟨⟨hnew, he⟩, hrest⟩ := h
      have hhere : unit.context.site? (some site) = [] := hsite
      simp only [evalKeywords, keywordsScopes]
      split
      · next hx =>
          rw [if_pos (List.contains_iff_mem.mpr (hseen x hx))] at hnew
          cases hnew
      · refine evalExpr_bind hu hk hs hhere he (tells_evalExpr hu hk hs e hhere he) fun v hv =>
          tells_evalKeywords hu hk hs rest hsite (hb.set x hv) (fun x' hx' => ?_) hrest
        rw [Bindings.has_set, Bool.or_eq_true, decide_eq_true_eq] at hx'
        rcases hx' with rfl | hx'
        · exact List.mem_cons_self
        · exact List.mem_cons_of_mem x (hseen x' hx')

end

end Program

end Coroutines
