import Coroutines.Number.Numeral

/-!
# Instants

The calendar times of ISO 8601 as milliseconds since the start of 1970: a year, a year and month
or a date, then perhaps a time of day and an offset.  Without an offset the time is universal.
-/

namespace Coroutines

namespace Instant

def msPerDay : Int := 86400000

/-- Days from the start of 1970 to a day of a month of a year in the Gregorian calendar. -/
def dayNumber (year : Int) (month day : Nat) : Int :=
  let y := if month ≤ 2 then year - 1 else year
  let monthFromMarch := (month + 9) % 12
  365 * y + y / 4 - y / 100 + y / 400 + ((153 * monthFromMarch + 2) / 5 : Nat) + day - 719469

/-- Exactly `n` digits, with no further digit behind them. -/
def digits? (n : Nat) (cs : List Char) : Option (Nat × List Char) :=
  let (ds, rest) := scanDigits cs
  if ds.length = n then some (digitsValue ds, rest) else none

/-- Two digits within bounds. -/
def part? (least most : Nat) (cs : List Char) : Option (Nat × List Char) :=
  match digits? 2 cs with
  | some (n, rest) => if least ≤ n ∧ n ≤ most then some (n, rest) else none
  | none => none

/-- Two digits after a mark; without the mark, the default. -/
def partAfter? (mark : Char) (least most default : Nat) : List Char → Option (Nat × List Char)
  | c :: rest => if c = mark then part? least most rest else some (default, c :: rest)
  | [] => some (default, [])

/-- Four digits, or a sign and six; there is no year minus zero. -/
def year? : List Char → Option (Int × List Char)
  | '+' :: rest => (digits? 6 rest).map fun (n, r) => (n, r)
  | '-' :: rest =>
    match digits? 6 rest with
    | some (n, r) => if n = 0 then none else some (-n, r)
    | none => none
  | cs => (digits? 4 cs).map fun (n, r) => (n, r)

/-- Milliseconds from the digits of a fraction; those after the third are dropped. -/
def fraction? : List Char → Option (Nat × List Char)
  | '.' :: rest =>
    let (ds, rest) := scanDigits rest
    if ds.isEmpty then none else some (digitsValue ((ds ++ ['0', '0']).take 3), rest)
  | cs => some (0, cs)

/-- Milliseconds from the start of the day; midnight may be written as the end of a day. -/
def timeOfDay? (cs : List Char) : Option (Nat × List Char) := do
  let (hour, rest) ← part? 0 24 cs
  let (minute, rest) ← match rest with
    | ':' :: r => part? 0 59 r
    | _ => none
  let (second, fraction, rest) ← match rest with
    | ':' :: r => do
      let (second, r) ← part? 0 59 r
      let (fraction, r) ← fraction? r
      some (second, fraction, r)
    | r => some (0, 0, r)
  if hour = 24 ∧ (minute ≠ 0 ∨ second ≠ 0 ∨ fraction ≠ 0) then none
  else some (((hour * 60 + minute) * 60 + second) * 1000 + fraction, rest)

/-- Hours and minutes of an offset, in milliseconds. -/
def offset? (cs : List Char) : Option Nat := do
  let (hour, _) ← part? 0 23 (cs.take 2)
  let (minute, rest) ← match cs.drop 2 with
    | ':' :: r => part? 0 59 r
    | r => part? 0 59 r
  if rest.isEmpty then some ((hour * 60 + minute) * 60000) else none

/-- What a zone adds to reach universal time. -/
def zone? : List Char → Option Int
  | [] | ['Z'] | ['z'] => some 0
  | '+' :: rest => (offset? rest).map fun ms => -(ms : Int)
  | '-' :: rest => (offset? rest).map fun ms => (ms : Int)
  | _ => none

/-- The milliseconds of a written instant, within a hundred million days of 1970. -/
def ofText? (s : String) : Option Int := do
  let (year, rest) ← year? s.toList
  let (month, rest) ← partAfter? '-' 1 12 1 rest
  let (day, rest) ← partAfter? '-' 1 31 1 rest
  let (time, zone) ← match rest with
    | [] => some (0, 0)
    | c :: rest =>
      if c = 'T' ∨ c = 't' then do
        let (time, rest) ← timeOfDay? rest
        let zone ← zone? rest
        some (time, zone)
      else none
  let ms := dayNumber year month day * msPerDay + time + zone
  if ms.natAbs ≤ 8640000000000000 then some ms else none

/-! ### Writing -/

/-- The year, month and day of a day number. -/
def civil (dayNumber : Int) : Int × Nat × Nat :=
  let z := dayNumber + 719468
  let era := z / 146097
  let day := (z % 146097).toNat
  let year := (day - day / 1460 + day / 36524 - day / 146096) / 365
  let dayOfYear := day - (365 * year + year / 4 - year / 100)
  let fromMarch := (5 * dayOfYear + 2) / 153
  let month := if fromMarch < 10 then fromMarch + 3 else fromMarch - 9
  let y : Int := year + era * 400
  (if month ≤ 2 then y + 1 else y, month, dayOfYear - (153 * fromMarch + 2) / 5 + 1)

/-- A number with leading zeros up to a width. -/
def padded (width n : Nat) : List Char :=
  let ds := Nat.toDigits 10 n
  List.replicate (width - ds.length) '0' ++ ds

/-- The universal time of milliseconds since the start of 1970, for years of four digits. -/
def text (ms : Int) : String :=
  let (year, month, day) := civil (ms / msPerDay)
  let clock := (ms % msPerDay).toNat
  let date := padded 4 year.toNat ++ '-' :: padded 2 month ++ '-' :: padded 2 day
  let time := padded 2 (clock / 3600000) ++ ':' :: padded 2 (clock / 60000 % 60) ++
    ':' :: padded 2 (clock / 1000 % 60) ++ '.' :: padded 3 (clock % 1000)
  String.ofList (date ++ 'T' :: time ++ ['Z'])

/-- The instant as a number, `nan` where the text is none. -/
def number (s : String) : Number := ((ofText? s).map Number.ofInt).getD .nan

end Instant

end Coroutines
