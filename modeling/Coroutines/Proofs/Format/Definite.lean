import Coroutines.Proofs.Bindings
import Coroutines.Proofs.Format.Units

/-!
# The numbers of a text

No numeral stands for `nan`, so there is none in what is read from a text
(`Json.definite_of_parse?`).
-/

namespace Coroutines.Json

/-- Every number in the value stands for one. -/
inductive Definite : Json → Prop
  | null : Definite .null
  | bool (b : Bool) : Definite (.bool b)
  | number {n : Number} (ne_nan : n ≠ .nan) : Definite (.number n)
  | text (s : String) : Definite (.text s)
  | array {items : List Json} (items_definite : ∀ v ∈ items, Definite v) : Definite (.array items)
  | object {members : List (String × Json)} (members_definite : ∀ m ∈ members, Definite m.2) :
      Definite (.object members)

theorem ofRatio_ne_nan (negative : Bool) (num den : Nat) :
    Number.ofRatio negative num den ≠ .nan := by
  unfold Number.ofRatio; split <;> simp

theorem ofDecimal_ne_nan (negative : Bool) (d : Decimal) : Number.ofDecimal negative d ≠ .nan := by
  have hz : Number.zero ≠ .nan := by rw [Number.zero_eq]; simp
  unfold Number.ofDecimal
  repeat' split
  all_goals first | exact hz | exact ofRatio_ne_nan _ _ _ | simp

theorem readUnsigned_ne_nan {negative : Bool} {cs rest : List Char} {n : Number}
    (h : readUnsigned negative cs = some (n, rest)) : n ≠ .nan := by
  simp only [readUnsigned] at h
  split at h
  · cases h
  · simp only [Option.some.injEq, Prod.mk.injEq] at h
    exact h.1 ▸ ofDecimal_ne_nan _ _

theorem readNumber_ne_nan {cs rest : List Char} {n : Number}
    (h : readNumber cs = some (n, rest)) : n ≠ .nan := by
  unfold readNumber at h
  split at h <;> exact readUnsigned_ne_nan h

theorem definite_ofMembers {members : List (String × Json)} (h : ∀ m ∈ members, m.2.Definite) :
    (ofMembers members).Definite :=
  .object (Bindings.forall_indexFirst (Bindings.forall_ofList h))

/-- What is read holds no `nan`. -/
theorem definite_of_read (fuel : Nat) :
    (∀ cs v rest, readValue fuel cs = some (v, rest) → v.Definite) ∧
      (∀ cs vs rest, readItems fuel cs = some (vs, rest) → ∀ v ∈ vs, v.Definite) ∧
        ∀ cs ms rest, readMembers fuel cs = some (ms, rest) → ∀ m ∈ ms, m.2.Definite := by
  induction fuel with
  | zero => refine ⟨?_, ?_, ?_⟩ <;> intro cs v rest h <;> cases h
  | succ fuel ih =>
    obtain ⟨ihv, ihi, ihm⟩ := ih
    refine ⟨?value, ?items, ?members⟩
    case value =>
      intro cs v rest h
      unfold readValue at h
      split at h
      · split at h
        · cases h; exact .object (by simp)
        · obtain ⟨⟨ms, r⟩, hm, e⟩ := Option.map_eq_some_iff.mp h
          cases e
          exact definite_ofMembers (ihm _ _ _ hm)
      · split at h
        · cases h; exact .array (by simp)
        · obtain ⟨⟨vs, r⟩, hv, e⟩ := Option.map_eq_some_iff.mp h
          cases e
          exact .array (ihi _ _ _ hv)
      · obtain ⟨⟨s, r⟩, -, e⟩ := Option.map_eq_some_iff.mp h
        cases e
        exact .text _
      · cases h; exact .bool _
      · cases h; exact .bool _
      · cases h; exact .null
      · obtain ⟨⟨n, r⟩, hn, e⟩ := Option.map_eq_some_iff.mp h
        cases e
        exact .number (readNumber_ne_nan hn)
    case items =>
      intro cs vs rest h
      unfold readItems at h
      split at h
      · cases h
      · next v r hv =>
        split at h
        · obtain ⟨⟨ws, r'⟩, hw, e⟩ := Option.map_eq_some_iff.mp h
          cases e
          exact List.forall_mem_cons.mpr ⟨ihv _ _ _ hv, ihi _ _ _ hw⟩
        · cases h
          simpa using ihv _ _ _ hv
        · cases h
    case members =>
      intro cs ms rest h
      unfold readMembers at h
      split at h
      · split at h
        · cases h
        split at h
        · split at h
          · cases h
          next v r hv =>
          split at h
          · obtain ⟨⟨ws, r'⟩, hw, e⟩ := Option.map_eq_some_iff.mp h
            cases e
            exact List.forall_mem_cons.mpr ⟨ihv _ _ _ hv, ihm _ _ _ hw⟩
          · cases h
            simpa using ihv _ _ _ hv
          · cases h
        · cases h
      · cases h

theorem definite_of_parse? {text : String} {v : Json} (h : parse? text = some v) : v.Definite := by
  unfold parse? at h
  dsimp only at h
  split at h
  · next w r hw =>
    split at h
    · exact Option.some.inj h ▸ (definite_of_read _).1 _ _ _ hw
    · cases h
  · cases h

theorem Definite.get? {j : Json} (h : j.Definite) (key : String) : ∀ v ∈ j.get? key, v.Definite := by
  intro v hv
  cases h with
  | object hm => exact hm (key, v) (mem_of_get? hv)
  | _ => cases hv

end Coroutines.Json
