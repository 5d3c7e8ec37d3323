import Coroutines.Proofs.Format.Rounding
import Coroutines.Json.Read
import Coroutines.Json.Write

/-!
# Reading numbers back

The text of a finite number is a numeral of JSON in each of its layouts, and it is read as the
number itself (`Json.readNumber_chars`), whatever follows it as long as that does not prolong the
numeral.
-/

namespace Coroutines

/-! ## Digits -/

theorem digitsValue_eq (cs : List Char) : digitsValue cs = Nat.ofDigitChars 10 cs 0 :=
  Nat.ofDigitChars_eq_foldl.symm

@[simp] theorem digitsValue_toDigits (n : Nat) : digitsValue (Nat.toDigits 10 n) = n := by
  rw [digitsValue_eq, Nat.ofDigitChars_ten_toDigits]

theorem digitsValue_append (cs ds : List Char) :
    digitsValue (cs ++ ds) = 10 ^ ds.length * digitsValue cs + digitsValue ds := by
  rw [digitsValue, List.foldl_append]
  show List.foldl _ (digitsValue cs) ds = _
  have : Nat.ofDigitChars 10 ds (digitsValue cs) = _ := Nat.ofDigitChars_eq_ofDigitChars_zero
  rwa [Nat.ofDigitChars_eq_foldl, ← digitsValue_eq] at this

@[simp] theorem digitsValue_zeros (n : Nat) : digitsValue (List.replicate n '0') = 0 := by
  induction n with
  | zero => rfl
  | succ n ih => rw [List.replicate_succ', digitsValue_append, ih]; rfl

theorem isDigit_of_mem_toDigits {n : Nat} {c : Char} (h : c ∈ Nat.toDigits 10 n) :
    c.isDigit = true :=
  Nat.isDigit_of_mem_toDigits (by decide) (by decide) h

/-- A positive number is not written with a zero in front. -/
theorem toDigits_ne_zero_cons {n : Nat} (hn : n ≠ 0) (r : List Char) :
    Nat.toDigits 10 n ≠ '0' :: r := by
  induction n using Nat.strongRecOn generalizing r with
  | ind n ih =>
    intro e
    rw [Nat.toDigits_eq_if (by decide)] at e
    split at e
    · next h =>
      have : ∀ m < 10, m.digitChar = '0' → m = 0 := by decide
      exact hn (this n h (List.cons.inj e).1)
    · next h =>
      obtain ⟨s, hs⟩ : ∃ s, Nat.toDigits 10 (n / 10) = '0' :: s := by
        cases hd : Nat.toDigits 10 (n / 10) with
        | nil => exact absurd hd Nat.toDigits_ne_nil
        | cons c s =>
          rw [hd] at e
          exact ⟨s, by rw [(List.cons.inj e).1]⟩
      exact ih (n / 10) (by omega) (by omega) s hs

/-- Digits are taken up to the first character that is none. -/
theorem scanDigits_of_digits {ds rest : List Char} (hd : ∀ c ∈ ds, c.isDigit = true)
    (hr : ∀ c ∈ rest.head?, c.isDigit = false) : scanDigits (ds ++ rest) = (ds, rest) := by
  have hrest : rest.takeWhile Char.isDigit = [] ∧ rest.dropWhile Char.isDigit = rest := by
    cases rest with
    | nil => exact ⟨rfl, rfl⟩
    | cons c r => simp [hr c (by simp)]
  rw [scanDigits, List.takeWhile_append_of_pos hd, List.dropWhile_append_of_pos hd, hrest.1,
    hrest.2, List.append_nil]

/-! ## Numerals -/

namespace Json

/-- No numeral goes on with these characters. -/
def EndsNumeral (cs : List Char) : Prop :=
  ∀ c ∈ cs.head?, c.isDigit = false ∧ c ≠ '.' ∧ c ≠ 'e' ∧ c ≠ 'E'

/-- The digits before the point: a single zero, or digits without a zero in front. -/
structure WholePart (ds : List Char) : Prop where
  digits : ∀ c ∈ ds, c.isDigit = true
  nonempty : ds ≠ []
  plain : ds = ['0'] ∨ ∀ r, ds ≠ '0' :: r

/-- The point and the digits after it, nothing without such digits. -/
def pointed : List Char → List Char
  | [] => []
  | ds => '.' :: ds

theorem scanPower_of_ends {rest : List Char} (h : EndsNumeral rest) :
    scanPower rest = (0, rest) := by
  cases rest with
  | nil => rfl
  | cons c r =>
    obtain ⟨-, -, he, hE⟩ := h c (by simp)
    simp [scanPower, he, hE]

theorem scanPower_power (p : Int) {rest : List Char} (h : EndsNumeral rest) :
    scanPower ('e' :: (if p < 0 then '-' else '+') :: (Nat.toDigits 10 p.natAbs ++ rest)) =
      (p, rest) := by
  generalize hn : p.natAbs = n
  have hscan : scanDigits (Nat.toDigits 10 n ++ rest) = (Nat.toDigits 10 n, rest) :=
    scanDigits_of_digits (fun c => isDigit_of_mem_toDigits) fun c hc => (h c hc).1
  have hne : (Nat.toDigits 10 n).isEmpty = false := by
    simp [List.isEmpty_eq_false_iff, Nat.toDigits_ne_nil]
  by_cases hp : p < 0
  · simp [scanPower, hp, hscan, hne]
    omega
  · simp [scanPower, hp, hscan, hne]
    omega

theorem scanWhole_of_wholePart {whole rest : List Char} (hw : WholePart whole)
    (hr : ∀ c ∈ rest.head?, c.isDigit = false) : scanWhole (whole ++ rest) = (whole, rest) := by
  rcases hw.plain with rfl | h0
  · rfl
  · unfold scanWhole
    split
    · next r e =>
      cases whole with
      | nil => exact absurd rfl hw.nonempty
      | cons c cs => exact absurd (by rw [(List.cons.inj e).1]) (h0 cs)
    · exact scanDigits_of_digits hw.digits hr

theorem scanFraction_pointed {fraction tail : List Char} (hf : ∀ c ∈ fraction, c.isDigit = true)
    (ht : ∀ c ∈ tail.head?, c.isDigit = false ∧ c ≠ '.') :
    scanFraction (pointed fraction ++ tail) = (fraction, tail) := by
  cases fraction with
  | nil =>
    unfold scanFraction
    split
    · next r e => exact absurd rfl (ht '.' (by simp [show tail = '.' :: r from e])).2
    · rfl
  | cons d ds =>
    have hscan := scanDigits_of_digits hf fun c hc => (ht c hc).1
    simp only [pointed, List.cons_append] at hscan ⊢
    simp [scanFraction, hscan]

/-- A numeral by its parts. -/
theorem readUnsigned_parts (negative : Bool) (whole fraction : List Char) {tail rest : List Char}
    {power : Int}
    (hw : WholePart whole) (hf : ∀ c ∈ fraction, c.isDigit = true)
    (ht : ∀ c ∈ tail.head?, c.isDigit = false ∧ c ≠ '.') (hp : scanPower tail = (power, rest)) :
    readUnsigned negative (whole ++ (pointed fraction ++ tail)) =
      some (.ofDecimal negative ⟨digitsValue (whole ++ fraction), power - fraction.length⟩, rest) := by
  have htail : ∀ c ∈ (pointed fraction ++ tail).head?, c.isDigit = false := by
    cases fraction with
    | nil => exact fun c hc => (ht c hc).1
    | cons d ds => simp [pointed]
  have hne : whole.isEmpty = false := by simpa using hw.nonempty
  simp only [readUnsigned, scanWhole_of_wholePart hw htail, scanFraction_pointed hf ht, hp, hne]
  rfl

theorem pointed_of_ne_nil {ds : List Char} (h : ds ≠ []) : pointed ds = '.' :: ds := by
  cases ds with
  | nil => exact absurd rfl h
  | cons d ds => rfl

theorem wholePart_zero : WholePart ['0'] := ⟨by simp, by simp, .inl rfl⟩

theorem wholePart_cons {c : Char} {cs : List Char} (h0 : c ≠ '0')
    (hd : ∀ x ∈ c :: cs, x.isDigit = true) : WholePart (c :: cs) :=
  ⟨hd, List.cons_ne_nil _ _, .inr fun _ e => h0 (List.cons.inj e).1⟩

section

variable (negative : Bool) {c : Char} {cs rest : List Char} (hc : c ≠ '0')
  (hd : ∀ x ∈ c :: cs, x.isDigit = true) (hr : EndsNumeral rest)

include hr in
theorem EndsNumeral.not_point : ∀ x ∈ rest.head?, x.isDigit = false ∧ x ≠ '.' := fun x hx =>
  ⟨(hr x hx).1, (hr x hx).2.1⟩

include hd hr

/-- A zero, the point, zeros and digits. -/
theorem readUnsigned_below (n : Nat) :
    readUnsigned negative ('0' :: '.' :: List.replicate n '0' ++ c :: cs ++ rest) =
      some (.ofDecimal negative ⟨digitsValue (c :: cs), -n - (c :: cs).length⟩, rest) := by
  have hdigits : ∀ x ∈ List.replicate n '0' ++ c :: cs, x.isDigit = true := by
    intro x hx
    rw [List.mem_append] at hx
    exact hx.elim (fun hx => by rw [List.eq_of_mem_replicate hx]; rfl) (hd x)
  have hread := readUnsigned_parts negative ['0'] _ wholePart_zero hdigits hr.not_point
    (scanPower_of_ends hr)
  have hzeros : ['0'] ++ (List.replicate n '0' ++ c :: cs) =
      List.replicate (n + 1) '0' ++ c :: cs := rfl
  rw [pointed_of_ne_nil (by simp), hzeros, digitsValue_append, digitsValue_zeros, Nat.mul_zero,
    Nat.zero_add] at hread
  refine Eq.trans (by simp) (hread.trans ?_)
  congr 4
  rw [List.length_append, List.length_replicate]
  omega

include hc

/-- Digits and zeros after them. -/
theorem readUnsigned_zeros (n : Nat) :
    readUnsigned negative (c :: cs ++ List.replicate n '0' ++ rest) =
      some (.ofDecimal negative ⟨digitsValue (c :: cs), n⟩, rest) := by
  have hdigits : ∀ x ∈ c :: (cs ++ List.replicate n '0'), x.isDigit = true := by
    intro x hx
    rw [← List.cons_append, List.mem_append] at hx
    exact hx.elim (hd x) fun hx => by rw [List.eq_of_mem_replicate hx]; rfl
  have hread := readUnsigned_parts negative _ [] (wholePart_cons hc hdigits) (by simp)
    hr.not_point (scanPower_of_ends hr)
  have hvalue : Number.ofDecimal negative ⟨digitsValue (c :: (cs ++ List.replicate n '0')), 0⟩ =
      .ofDecimal negative ⟨digitsValue (c :: cs), n⟩ := by
    rw [← List.cons_append, digitsValue_append, digitsValue_zeros, List.length_replicate,
      Nat.add_zero, Nat.mul_comm, Number.ofDecimal_mul_pow_ten, Int.zero_add]
  rw [← hvalue]
  simpa [pointed] using hread

/-- A point between two digits. -/
theorem readUnsigned_between {n : Nat} (h0 : 0 < n) (h : n < (c :: cs).length) :
    readUnsigned negative ((c :: cs).take n ++ '.' :: (c :: cs).drop n ++ rest) =
      some (.ofDecimal negative ⟨digitsValue (c :: cs), n - (c :: cs).length⟩, rest) := by
  obtain ⟨m, rfl⟩ : ∃ m, n = m + 1 := ⟨n - 1, by omega⟩
  have hdrop : (c :: cs).drop (m + 1) ≠ [] := by rw [Ne, List.drop_eq_nil_iff]; omega
  have hread := readUnsigned_parts negative (c :: cs.take m) ((c :: cs).drop (m + 1))
    (wholePart_cons hc fun x hx => hd x (List.mem_of_mem_take (i := m + 1) hx))
    (fun x hx => hd x (List.mem_of_mem_drop hx)) hr.not_point (scanPower_of_ends hr)
  rw [pointed_of_ne_nil hdrop, ← List.take_succ_cons, List.take_append_drop] at hread
  refine Eq.trans (by simp) (hread.trans ?_)
  congr 4
  rw [List.length_drop]
  omega

/-- A digit, the point, digits and a power of ten. -/
theorem readUnsigned_scientific (p : Int) :
    readUnsigned negative (c :: (pointed cs ++ 'e' :: (if p < 0 then '-' else '+') ::
        (Nat.toDigits 10 p.natAbs ++ rest))) =
      some (.ofDecimal negative ⟨digitsValue (c :: cs), p - cs.length⟩, rest) :=
  readUnsigned_parts negative [c] cs (wholePart_cons hc (by simpa using hd c (by simp)))
    (fun x hx => hd x (by simp [hx])) (by simp) (scanPower_power p hr)

end

/-- A decimal is read from its text, in each of the four layouts. -/
theorem readUnsigned_layout (negative : Bool) {d : Decimal} (hd : d.digits ≠ 0)
    {rest : List Char} (hr : EndsNumeral rest) :
    readUnsigned negative (d.layout ++ rest) = some (.ofDecimal negative d, rest) := by
  obtain ⟨digits, e⟩ := d
  have hvalue := digitsValue_toDigits digits
  have hdigits : ∀ x ∈ Nat.toDigits 10 digits, x.isDigit = true := fun x => isDigit_of_mem_toDigits
  have hlead := toDigits_ne_zero_cons hd
  cases hs : Nat.toDigits 10 digits with
  | nil => exact absurd hs Nat.toDigits_ne_nil
  | cons c cs =>
    rw [hs] at hvalue hdigits
    have hc : c ≠ '0' := fun h => hlead cs (h ▸ hs)
    have hlen : (c :: cs).length = cs.length + 1 := rfl
    simp only [Decimal.layout, hs]
    generalize hpoint : (((c :: cs).length : Nat) : Int) + e = point
    split
    · rw [readUnsigned_zeros negative hc hdigits hr, hvalue]
      congr 4
      omega
    split
    · rw [readUnsigned_between negative hc hdigits hr (by omega) (by omega), hvalue]
      congr 4
      omega
    split
    · rw [readUnsigned_below negative hdigits hr, hvalue]
      congr 4
      omega
    · refine Eq.trans ?_ ((readUnsigned_scientific negative hc hdigits hr (point - 1)).trans ?_)
      · cases cs <;> simp [pointed]
      · rw [hvalue]
        congr 4
        omega

/-! ## The text of a number -/

theorem shortest_digits_ne_zero {n : Nat} (hn : Representable n) (h0 : n ≠ 0) :
    (Number.shortest n).digits ≠ 0 := by
  intro h
  have hread := Number.ofDecimal_shortest hn
  rw [Number.ofDecimal, if_pos h, Number.zero_eq] at hread
  simp only [Number.finite.injEq] at hread
  omega

theorem readUnsigned_shortest (negative : Bool) {n : Nat} (hn : Representable n) (h0 : n ≠ 0)
    {rest : List Char} (hr : EndsNumeral rest) :
    readUnsigned negative ((Number.shortest n).layout ++ rest) =
      some (if negative then (Number.finite n hn).neg else .finite n hn, rest) := by
  rw [readUnsigned_layout negative (shortest_digits_ne_zero hn h0) hr]
  cases negative with
  | false => rw [Number.ofDecimal_shortest hn]; rfl
  | true => rw [Number.ofDecimal_true, Number.ofDecimal_shortest hn]; rfl

theorem readUnsigned_zero {rest : List Char} (hr : EndsNumeral rest) :
    readUnsigned false ('0' :: rest) = some (.zero, rest) :=
  readUnsigned_parts false ['0'] [] wholePart_zero (by simp) hr.not_point
    (scanPower_of_ends hr)

/-- A decimal is written with a digit in front. -/
theorem layout_head (d : Decimal) : ∃ c cs, d.layout = c :: cs ∧ c.isDigit = true := by
  cases hs : Nat.toDigits 10 d.digits with
  | nil => exact absurd hs Nat.toDigits_ne_nil
  | cons c cs =>
    have hc : c.isDigit = true := isDigit_of_mem_toDigits (n := d.digits) (by simp [hs])
    simp only [Decimal.layout, hs]
    generalize hpoint : (((c :: cs).length : Nat) : Int) + d.exponent = point
    split
    · exact ⟨c, _, rfl, hc⟩
    split
    · obtain ⟨m, hm⟩ : ∃ m, point.toNat = m + 1 := ⟨point.toNat - 1, by omega⟩
      exact ⟨c, _, by rw [hm]; rfl, hc⟩
    split
    · exact ⟨'0', _, rfl, rfl⟩
    · cases cs <;> exact ⟨c, _, rfl, hc⟩

theorem readNumber_of_digit {c : Char} {cs : List Char} (hc : c.isDigit = true) :
    readNumber (c :: cs) = readUnsigned false (c :: cs) := by
  unfold readNumber
  split
  · next e =>
    rw [(List.cons.inj e).1] at hc
    exact absurd hc (by decide)
  · rfl

theorem chars_finite (u : Int) (h : Representable u) :
    (Number.finite u h).chars =
      if u = 0 then ['0']
      else if u < 0 then '-' :: (Number.shortest u.natAbs).layout
      else (Number.shortest u.natAbs).layout :=
  rfl

/-- A finite number is written as a numeral, with a sign if it is negative. -/
theorem chars_head {n : Number} (hn : n.isFinite = true) :
    ∃ c cs, n.chars = c :: cs ∧ (c.isDigit = true ∨ c = '-') := by
  cases n with
  | infinite s => simp [Number.isFinite] at hn
  | nan => simp [Number.isFinite] at hn
  | finite u h =>
    rw [chars_finite]
    split
    · exact ⟨'0', [], rfl, .inl rfl⟩
    split
    · exact ⟨'-', _, rfl, .inr rfl⟩
    · obtain ⟨c, cs, e, hc⟩ := layout_head (Number.shortest u.natAbs)
      exact ⟨c, cs, e, .inl hc⟩

/-- A finite number is read from its text. -/
theorem readNumber_chars {n : Number} (hn : n.isFinite = true) {rest : List Char}
    (hr : EndsNumeral rest) : readNumber (n.chars ++ rest) = some (n, rest) := by
  cases n with
  | infinite s => simp [Number.isFinite] at hn
  | nan => simp [Number.isFinite] at hn
  | finite u h =>
    have habs : Representable (u.natAbs : Int) := by rwa [Representable, Int.natAbs_natCast]
    rw [chars_finite]
    by_cases h0 : u = 0
    · rw [if_pos h0, List.singleton_append, readNumber_of_digit rfl, readUnsigned_zero hr,
        Number.zero_eq]
      exact congrArg (fun n => some (n, rest)) (Number.finite_eq_finite h0.symm)
    rw [if_neg h0]
    have h0' : u.natAbs ≠ 0 := by omega
    by_cases hneg : u < 0
    · rw [if_pos hneg]
      refine (readUnsigned_shortest true habs h0' hr).trans ?_
      exact congrArg (fun n => some (n, rest)) (Number.finite_eq_finite (by omega))
    · rw [if_neg hneg]
      obtain ⟨c, cs, e, hc⟩ := layout_head (Number.shortest u.natAbs)
      have hread := readUnsigned_shortest false habs h0' hr
      rw [e, List.cons_append] at hread ⊢
      rw [readNumber_of_digit hc, hread]
      exact congrArg (fun n => some (n, rest)) (Number.finite_eq_finite (by omega))

end Json

end Coroutines
