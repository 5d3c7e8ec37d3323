import Coroutines.Bindings

/-!
# Bindings and what they bind

What binding a name adds to bindings, what bindings made from a list of entries bind, and what putting the
keys of an object in order leaves alone.
-/

namespace Coroutines

namespace Bindings

variable {α : Type}

/-! ### Properties of all entries -/

section

variable {P : String × α → Prop}

theorem forall_set {b : Bindings α} {name : String} {a : α} (hb : ∀ p ∈ b, P p) (ha : P (name, a)) :
    ∀ p ∈ b.set name a, P p := by
  induction b with
  | nil => simpa [set] using ha
  | cons q b ih =>
      obtain ⟨n, v⟩ := q
      have hrest := fun p hp => hb p (List.mem_cons_of_mem _ hp)
      rw [set]
      split
      · next e => exact List.forall_mem_cons.mpr ⟨e ▸ ha, hrest⟩
      · exact List.forall_mem_cons.mpr ⟨hb _ List.mem_cons_self, ih hrest⟩

theorem forall_ofList {l : List (String × α)} (h : ∀ p ∈ l, P p) : ∀ p ∈ ofList l, P p :=
  List.foldlRecOn (motive := fun b : Bindings α => ∀ p ∈ b, P p) l _ (by simp)
    fun _ hb _ hq => forall_set hb (h _ hq)

end

/-! ### The order of keys -/

theorem perm_insertIndex (n : Nat) (entry : String × α) (l : List (Nat × String × α)) :
    ((insertIndex n entry l).map Prod.snd).Perm (entry :: l.map Prod.snd) := by
  induction l with
  | nil => exact .refl _
  | cons q l ih =>
      rw [insertIndex]
      split
      · exact .refl _
      · exact (ih.cons q.2).trans (.swap ..)

/-- Entries with an index that are put in their places one by one. -/
theorem perm_foldl_index {f : List (Nat × String × α) → String × α → List (Nat × String × α)}
    (hsome : ∀ acc e n, index? e.1 = some n → f acc e = insertIndex n e acc)
    (hnone : ∀ acc e, index? e.1 = none → f acc e = acc) (b : Bindings α) (acc : List (Nat × String × α)) :
    ((b.foldl f acc).map Prod.snd).Perm (acc.map Prod.snd ++ b.filter fun e => (index? e.1).isSome) := by
  induction b generalizing acc with
  | nil => simp
  | cons e b ih =>
      rw [List.foldl_cons]
      refine (ih _).trans ?_
      cases hindex : index? e.1 with
      | none => simp [hnone acc e hindex, hindex]
      | some n =>
          simp only [hsome acc e n hindex, List.filter_cons, hindex, Option.isSome_some, if_true]
          exact ((perm_insertIndex n e acc).append_right _).trans List.perm_middle.symm

/-- The keys in order are those of the bindings. -/
theorem perm_indexFirst (b : Bindings α) : b.indexFirst.Perm b := by
  have hrest : b.filter (fun e => (index? e.1).isNone) = b.filter fun e => !(index? e.1).isSome := by
    simp only [Option.not_isSome]
  unfold indexFirst
  rw [hrest]
  refine ((perm_foldl_index ?_ ?_ b []).append_right _).trans (List.filter_append_perm ..)
  · intro acc e n h
    simp only [h]
  · intro acc e h
    simp only [h]

theorem forall_indexFirst {P : String × α → Prop} {b : Bindings α} (h : ∀ p ∈ b, P p) :
    ∀ p ∈ b.indexFirst, P p := fun p hp => h p (b.perm_indexFirst.mem_iff.mp hp)

theorem mem_of_mem_indexFirst {b : Bindings α} {e : String × α} (h : e ∈ b.indexFirst) : e ∈ b :=
  b.perm_indexFirst.mem_iff.mp h

theorem mem_names_indexFirst {b : Bindings α} {name : String} : name ∈ b.indexFirst.names ↔ name ∈ b.names :=
  (b.perm_indexFirst.map Prod.fst).mem_iff

/-- Without index keys the order stays. -/
theorem indexFirst_of_names {b : Bindings α} (h : ∀ p ∈ b, index? p.1 = none) : b.indexFirst = b := by
  have hfilter : b.filter (fun e => (index? e.1).isNone) = b :=
    List.filter_eq_self.mpr fun p hp => by rw [h p hp]; rfl
  unfold indexFirst
  rw [hfilter]
  refine (congrArg (· ++ b) (List.map_eq_nil_iff.mpr ?_)).trans (List.nil_append b)
  refine List.foldlRecOn (motive := (· = [])) b _ rfl fun acc hacc p hp => ?_
  rw [h p hp]
  exact hacc

/-! ### Properties of all values -/

variable {P : α → Prop} {b : Bindings α}

/-- All bound values have a property. -/
def All (P : α → Prop) (b : Bindings α) : Prop := ∀ e ∈ b, P e.2

theorem All.nil : All P ([] : Bindings α) := nofun

theorem All.get? (h : b.All P) {name : String} {a : α} (ha : b.get? name = some a) : P a := by
  induction b with
  | nil => cases ha
  | cons e rest ih =>
      simp only [Bindings.get?] at ha
      split at ha
      · exact Option.some.inj ha ▸ h e List.mem_cons_self
      · exact ih (fun e' he => h e' (List.mem_cons_of_mem e he)) ha

theorem All.set (h : b.All P) (name : String) {a : α} (ha : P a) : (b.set name a).All P := forall_set h ha

theorem All.ofList {l : List (String × α)} (h : ∀ e ∈ l, P e.2) : (Bindings.ofList l).All P := forall_ofList h

/-! ### Names -/

theorem has_set (b : Bindings α) (name : String) (a : α) (other : String) :
    (b.set name a).has other = (decide (name = other) || b.has other) := by
  unfold has
  rw [get?_set]
  split <;> simp_all

theorem has_set_of_has {name other : String} (a : α) (h : b.has other = true) :
    (b.set name a).has other = true := by
  rw [has_set, h, Bool.or_true]

theorem has_ofList (l : List (String × α)) (name : String) :
    (Bindings.ofList l).has name = decide (name ∈ l.map Prod.fst) := by
  have hfold : ∀ (l : List (String × α)) (b : Bindings α),
      (l.foldl (fun b p => b.set p.1 p.2) b).has name =
        (b.has name || decide (name ∈ l.map Prod.fst)) := by
    intro l
    induction l with
    | nil => exact fun b => (Bool.or_false _).symm
    | cons e rest ih =>
        intro b
        rw [List.foldl_cons, ih, has_set, List.map_cons]
        by_cases h : e.1 = name
        · simp [h]
        · have hne : (name == e.1) = false := beq_false_of_ne (Ne.symm h)
          simp [h, hne]
  exact hfold l []

/-- A name that has a value is bound. -/
theorem mem_names_of_get? {n : String} {a : α} (h : b.get? n = some a) : n ∈ b.names := by
  induction b with
  | nil => cases h
  | cons e rest ih =>
      simp only [Bindings.get?] at h
      split at h
      · next hn => exact hn ▸ List.mem_cons_self
      · exact List.mem_cons_of_mem _ (ih h)

theorem has_iff {name : String} : b.has name = true ↔ name ∈ b.names := by
  induction b with
  | nil => exact iff_of_false nofun nofun
  | cons e rest ih =>
      simp only [has, get?, names, List.map_cons, List.mem_cons] at ih ⊢
      split
      · next h => exact iff_of_true rfl (.inl h.symm)
      · next h => exact ih.trans (or_iff_right (Ne.symm h)).symm

theorem has_eq_false {name : String} (h : name ∉ b.names) : b.has name = false := by
  rw [Bool.eq_false_iff, Ne, has_iff]
  exact h

/-- Where no name comes twice, a name stands for the value of its only entry. -/
theorem get?_eq_some_iff (h : b.names.Nodup) {name : String} {a : α} :
    b.get? name = some a ↔ (name, a) ∈ b := by
  induction b with
  | nil => exact iff_of_false nofun nofun
  | cons e rest ih =>
      obtain ⟨n, v⟩ := e
      obtain ⟨hn, hrest⟩ := List.nodup_cons.mp h
      rw [get?, List.mem_cons]
      split
      · next hname =>
          subst hname
          have hnot : (n, a) ∉ rest := fun hmem => hn (List.mem_map.mpr ⟨_, hmem, rfl⟩)
          simp [hnot, eq_comm]
      · next hname => simp [ih hrest, Ne.symm hname]

/-! ### Bindings made from a list -/

theorem set_of_not_mem {b : Bindings α} {name : String} (h : name ∉ b.map Prod.fst) (v : α) :
    b.set name v = b ++ [(name, v)] := by
  induction b with
  | nil => rfl
  | cons p rest ih =>
      obtain ⟨n, w⟩ := p
      simp only [List.map_cons, List.mem_cons, not_or] at h
      rw [set, if_neg (Ne.symm h.1), ih h.2, List.cons_append]

/-- Bindings of different names are made one after the other. -/
theorem ofList_of_nodup {l : List (String × α)} (h : (l.map Prod.fst).Nodup) : ofList l = l := by
  have hfold : ∀ (acc : Bindings α) (l : List (String × α)), ((acc ++ l).map Prod.fst).Nodup →
      l.foldl (fun b p => b.set p.1 p.2) acc = acc ++ l := by
    intro acc l
    induction l generalizing acc with
    | nil => simp
    | cons p l ih =>
        intro h
        have hp : p.1 ∉ acc.map Prod.fst := by
          rw [List.map_append, List.nodup_append] at h
          exact fun hm => h.2.2 _ hm _ (by simp) rfl
        rw [List.foldl_cons, set_of_not_mem hp, ih (acc ++ [p]) (by simpa using h)]
        simp
  exact hfold [] l h

theorem mem_of_get?_ofList {l : List (String × α)} {n : String} {a : α}
    (h : (Bindings.ofList l).get? n = some a) : (n, a) ∈ l := by
  have hfold : ∀ (l : List (String × α)) (b : Bindings α),
      (l.foldl (fun b p => b.set p.1 p.2) b).get? n = some a → (n, a) ∈ l ∨ b.get? n = some a := by
    intro l
    induction l with
    | nil => exact fun b h => .inr h
    | cons e rest ih =>
        intro b h
        rcases ih _ h with h | h
        · exact .inl (List.mem_cons_of_mem e h)
        · rw [get?_set] at h
          split at h
          · next hname =>
              cases h
              exact .inl (hname ▸ List.mem_cons_self)
          · exact .inr h
  exact (hfold l [] h).resolve_right nofun

theorem get?_ofList_map (l : List (String × α)) (f : α → α) (n : String) :
    (Bindings.ofList (l.map fun e => (e.1, f e.2))).get? n = ((Bindings.ofList l).get? n).map f := by
  have hfold : ∀ (l : List (String × α)) (b b' : Bindings α),
      (∀ n, b'.get? n = (b.get? n).map f) →
      ((l.map fun e => (e.1, f e.2)).foldl (fun b p => b.set p.1 p.2) b').get? n =
        ((l.foldl (fun b p => b.set p.1 p.2) b).get? n).map f := by
    intro l
    induction l with
    | nil => exact fun b b' h => h n
    | cons e rest ih =>
        intro b b' h
        refine ih _ _ fun m => ?_
        rw [get?_set, get?_set, h]
        split <;> rfl
  exact hfold l [] [] fun _ => rfl

end Bindings

end Coroutines
