import Coroutines.Proofs.Defects.Exact
import Coroutines.Proofs.Format.Loading

/-!
# Places of diagnostics

The spans of diagnostics are sites of the unit (`CompiledUnit.hasSite_of_mem_validate`), so in a unit that was
loaded from a file their numbers are whole and not negative (`UnitFile.wellFormed_site`).
-/

namespace Coroutines

/-- The places that diagnostics name have a property. -/
def Located (P : Site → Prop) (ds : List Diagnostic) : Prop := ∀ d ∈ ds, ∀ s ∈ d.span, P s.site

namespace Located

variable {α : Type} {P Q : Site → Prop} {ds es : List Diagnostic}

theorem nil : Located P [] := nofun

theorem single {d : Diagnostic} (h : ∀ s ∈ d.span, P s.site) : Located P [d] := List.forall_mem_singleton.mpr h

/-- A diagnostic that names no place. -/
theorem placeless {d : Diagnostic} (h : d.span = none) : Located P [d] :=
  single fun s hs => by rw [h] at hs; cases hs

theorem append (hd : Located P ds) (he : Located P es) : Located P (ds ++ es) :=
  List.forall_mem_append.mpr ⟨hd, he⟩

theorem flatMap {l : List α} {f : α → List Diagnostic} (h : ∀ a ∈ l, Located P (f a)) :
    Located P (l.flatMap f) := by
  intro d hd
  obtain ⟨a, ha, hd⟩ := List.mem_flatMap.mp hd
  exact h a ha d hd

theorem mono (h : Located P ds) (hPQ : ∀ s, P s → Q s) : Located Q ds :=
  fun d hd s hs => hPQ _ (h d hd s hs)

theorem perm (h : Located P ds) (hds : es.Perm ds) : Located P es := fun d hd => h d (hds.subset hd)

theorem repeated {report : String → Diagnostic} (h : ∀ n, ∀ s ∈ (report n).span, P s.site)
    (seen names : List String) : Located P (repeated report seen names) := by
  induction names generalizing seen with
  | nil => exact nil
  | cons n rest ih =>
      refine append ?_ (ih (n :: seen))
      split
      · exact single (h n)
      · exact nil

end Located

namespace CheckContext

variable {ctx : CheckContext} {bound : List String} {owner : Option FunctionDecl}

theorem located_site? (own : Option Site) : Located (own = some ·) (ctx.site? own) := by
  cases own with
  | none => exact .nil
  | some s =>
      have hsite : Located (some s = some ·) (ctx.site s) := by
        unfold site
        split
        · split
          · exact .single fun _ hs => by cases hs; rfl
          · exact .nil
        · exact .single fun _ hs => by cases hs; rfl
      exact hsite

theorem located_own (enclosing : Option Site) (e : Expr) :
    Located (e.site? = some ·) (ctx.own bound enclosing e) := by
  cases e with
  | const | list | tuple => exact .nil
  | name n own =>
      rw [CheckContext.own, name_eq]
      refine ((located_site? own).append ?_).append ?_
      · unfold siteless
        split
        · exact .placeless rfl
        · exact .nil
      · unfold unknown
        split
        · split
          · refine .single fun s hs => ?_
            obtain ⟨site, rfl, rfl⟩ := Option.map_eq_some_iff.mp hs
            rfl
          · exact .nil
        · exact .nil
  | binary op left right here => exact located_site? (some here)
  | call callee args keywords here =>
      exact (located_site? (some here)).append (.repeated (fun n s hs => by cases hs; rfl) _ _)

theorem located_expr (enclosing : Option Site) (e : Expr) : Located e.HasSite (ctx.expr bound enclosing e) := by
  induction e using Expr.partsInduction generalizing enclosing with
  | _ e ih =>
  refine .perm (.append ?_ (.flatMap fun a ha => ?_)) (expr_perm e)
  · exact (located_own enclosing e).mono fun s hs => Expr.hasSite_iff.mpr (.inl hs)
  · exact (ih a ha _).mono fun s hs => Expr.hasSite_iff.mpr (.inr ⟨a, ha, hs⟩)

theorem located_outside (s : Stmt) : Located (s.site? = some ·) (ctx.outside owner s) := by
  cases s with
  | assign | expr | assert => exact .nil
  | ret value own =>
      simp only [outside]
      split
      · exact .placeless rfl
      · exact .nil
  | await target value own =>
      have hown : ∀ s ∈ some (Span.mk ctx.file own), (Stmt.await target value own).site? = some s.site :=
        fun s hs => by cases hs; rfl
      simp only [outside]
      split
      · exact .single hown
      · split
        · exact .nil
        · exact .single hown

theorem located_stmt (s : Stmt) : Located s.HasSite (ctx.stmt owner bound s) := by
  refine .perm (.append (.append ?_ ?_) (.flatMap fun e he => ?_)) (stmt_perm s)
  · exact (located_site? s.site?).mono fun site hs => .inl hs
  · exact (located_outside s).mono fun site hs => .inl hs
  · exact (located_expr s.site? e).mono fun site hs => .inr ⟨e, he, hs⟩

end CheckContext

/-- **Diagnostics name sites of the unit.** -/
theorem CompiledUnit.located_validate (unit : CompiledUnit) (builtins : Option (List String)) :
    Located unit.HasSite (unit.validate builtins) := by
  refine .append (.append (.append ?_ ?_) (.flatMap fun fn hfn => .append ?_ (.flatMap fun s hs => ?_)))
    (.flatMap fun s hs => ?_)
  · exact .repeated (fun _ => nofun) _ _
  · exact .repeated (fun _ => nofun) _ _
  · exact .repeated (fun _ => nofun) _ _
  · exact (CheckContext.located_stmt s).mono fun site h => ⟨s, .inr ⟨fn, hfn, hs⟩, h⟩
  · exact (CheckContext.located_stmt s).mono fun site h => ⟨s, .inl hs, h⟩

/-! ### Sites of units that were loaded -/

theorem Expr.WellFormed.site {admitted : Number → Prop} {e : Expr} (h : e.WellFormed admitted) {site : Site}
    (hs : e.HasSite site) : site.WellFormed := by
  induction h with
  | const => exact (Expr.hasSite_const hs).elim
  | name _ site_wf => exact site_wf site (Expr.hasSite_name.mp hs)
  | list _ ih =>
      obtain ⟨a, ha, hs⟩ := Expr.hasSite_list.mp hs
      exact ih a ha hs
  | tuple _ ih =>
      obtain ⟨a, ha, hs⟩ := Expr.hasSite_tuple.mp hs
      exact ih a ha hs
  | binary _ _ site_wf ihl ihr =>
      rcases Expr.hasSite_binary.mp hs with rfl | hs | hs
      · exact site_wf
      · exact ihl hs
      · exact ihr hs
  | @call callee args keywords here _ _ _ _ site_wf ihc iha ihk =>
      rcases Expr.hasSite_call.mp hs with rfl | hs | ⟨a, ha, hs⟩ | ⟨a, ha, hpart⟩
      · exact site_wf
      · exact ihc hs
      · exact iha a ha hs
      · obtain ⟨k, hk, rfl⟩ := List.mem_map.mp ha
        cases keywords with
        | none => cases hk
        | some ks => exact ihk ks rfl k hk hpart

theorem Stmt.WellFormed.site {admitted : Number → Prop} {s : Stmt} (h : s.WellFormed admitted) {site : Site}
    (hs : s.HasSite site) : site.WellFormed := by
  have hexprs : (∀ e ∈ s.exprs, e.WellFormed admitted) ∧ ∀ site ∈ s.site?, site.WellFormed := by
    cases s with
    | assign name value own => exact ⟨List.forall_mem_singleton.mpr h.2.1, h.2.2⟩
    | expr value own => exact ⟨List.forall_mem_singleton.mpr h.1, h.2⟩
    | await target value own => exact ⟨List.forall_mem_singleton.mpr h.2.1, fun _ hs => by cases hs; exact h.2.2⟩
    | ret value own => exact ⟨fun e he => h.1 e (Option.mem_toList.mp he), h.2⟩
    | assert test message own =>
        exact ⟨List.forall_mem_cons.mpr ⟨h.1, fun e he => h.2.1 e (Option.mem_toList.mp he)⟩,
          fun _ hs => by cases hs; exact h.2.2⟩
  rcases hs with hs | ⟨e, he, hs⟩
  · exact hexprs.2 site hs
  · exact (hexprs.1 e he).site hs

theorem CompiledUnit.WellFormed.site {admitted : Number → Prop} {unit : CompiledUnit}
    (h : unit.WellFormed admitted) {site : Site} (hs : unit.HasSite site) : site.WellFormed := by
  obtain ⟨s, hmem | ⟨fn, hfn, hmem⟩, hs⟩ := hs
  · exact (h.module s hmem).site hs
  · exact ((h.functions fn hfn).body s hmem).site hs

namespace UnitFile

/-- The name of a file is of no account for whether it is loaded and what its statements are. -/
theorem load_renamed {text file : String} {unit : CompiledUnit} (h : load text file = .ok unit) (other : String) :
    ∃ name, load text other = .ok { unit with file := name } := by
  unfold load at h ⊢
  cases hparse : Json.parse? text with
  | none => rw [hparse] at h; cases h
  | some j =>
      simp only [hparse] at h ⊢
      split at h
      · next hissues hdecode =>
          cases h
          rw [hissues]
          unfold decode? at hdecode ⊢
          simp only [Option.bind_eq_bind, Option.bind_eq_some_iff] at hdecode
          obtain ⟨declared, hdeclared, source, hsource, inputs, hinputs, functions, hfunctions, module, hmodule,
            hunit⟩ := hdecode
          cases hunit
          rw [hdeclared, hsource, hinputs, hfunctions, hmodule]
          exact ⟨_, rfl⟩
      · cases h

/-- The sites of a unit that was loaded have whole numbers. -/
theorem wellFormed_site {text file : String} {unit : CompiledUnit} (h : load text file = .ok unit) {site : Site}
    (hs : unit.HasSite site) : site.WellFormed := by
  obtain ⟨name, hname⟩ := load_renamed h "unit.json"
  rcases load_sound text (by decide : "unit.json" ≠ "") with ⟨unit', hunit', hwf⟩ | ⟨ds, hds, -⟩
  · cases hname.symm.trans hunit'
    exact hwf.site hs
  · cases hname.symm.trans hds

end UnitFile

end Coroutines
