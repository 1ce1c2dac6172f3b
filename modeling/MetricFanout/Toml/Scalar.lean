import MetricFanout.Toml.Basic
import MetricFanout.Toml.Text
/-!
# Numbers and moments in TOML

Integers in four bases, floating-point numbers, dates and times. Digits may be grouped by single
underscores. What begins like a date or a time is one; a number must not run on behind its end, but
that shows only in what follows it.

Integers must fit into 64 bits with a sign. A floating-point number is rounded to the nearest
double-precision value, and a positive one must not round to infinity.
-/

namespace MetricFanout.Toml

/-! ## Digits -/

/-- A digit of a base up to sixteen. -/
def digitIn? (base : Nat) (c : Char) : Option Nat :=
  (hexValue? c).bind fun d => if d < base then some d else none

/-- Further digits, each perhaps behind an underscore. -/
def moreDigits (base : Nat) : List Char → List Nat × List Char
  | [] => ([], [])
  | '_' :: c :: rest =>
      match digitIn? base c with
      | some d => let (ds, r) := moreDigits base rest; (d :: ds, r)
      | none => ([], '_' :: c :: rest)
  | c :: rest =>
      match digitIn? base c with
      | some d => let (ds, r) := moreDigits base rest; (d :: ds, r)
      | none => ([], c :: rest)

/-- At least one digit. -/
def someDigits? (base : Nat) : Reader (List Nat)
  | [] => none
  | c :: rest =>
      (digitIn? base c).map fun d => let (ds, r) := moreDigits base rest; (d :: ds, r)

/-- The number that digits denote. -/
def valueIn (base : Nat) (digits : List Nat) : Nat := digits.foldl (fun n d => n * base + d) 0

/-- A sign, true for a minus. -/
def sign : List Char → Bool × List Char
  | '-' :: rest => (true, rest)
  | '+' :: rest => (false, rest)
  | cs => (false, cs)

/-- The whole digits of a decimal number: a lone zero, or digits that do not start with one. -/
def wholeDigits? (cs : List Char) : Option (List Nat × List Char) :=
  match cs with
  | '0' :: rest => some ([0], rest)
  | cs => someDigits? 10 cs

/-- Exactly `n` decimal digits without underscores. -/
def fixedDigits? : (n : Nat) → Reader (List Nat)
  | 0, cs => some ([], cs)
  | _ + 1, [] => none
  | n + 1, c :: rest =>
      match digitIn? 10 c with
      | none => none
      | some d => (fixedDigits? n rest).map fun (ds, r) => (d :: ds, r)

/-- A number of exactly `n` digits from `low` to `high`. -/
def field? (n low high : Nat) (cs : List Char) : Option (Nat × List Char) :=
  match fixedDigits? n cs with
  | some (ds, rest) =>
      if low ≤ valueIn 10 ds && valueIn 10 ds ≤ high then some (valueIn 10 ds, rest) else none
  | none => none

/-! ## Moments -/

/-- A leap year has 29 days in February. -/
def isLeap (year : Nat) : Bool := year % 4 = 0 && (year % 100 ≠ 0 || year % 400 = 0)

/-- The number of days of a month. -/
def daysIn (year month : Nat) : Nat :=
  if month = 2 then (if isLeap year then 29 else 28)
  else if month = 4 || month = 6 || month = 9 || month = 11 then 30
  else 31

/-- Step over one given character. -/
def skipChar? (c : Char) : List Char → Option (List Char)
  | d :: rest => if c = d then some rest else none
  | [] => none

/-- A date. -/
def date? (cs : List Char) : Option (Date × List Char) := do
  let (year, cs) ← field? 4 0 9999 cs
  let (month, cs) ← field? 2 1 12 (← skipChar? '-' cs)
  let (day, cs) ← field? 2 1 31 (← skipChar? '-' cs)
  if day ≤ daysIn year month then return (⟨year, month, day⟩, cs) else none

/-- The digits behind a point, or none without a point. -/
def fraction? (cs : List Char) : Option (List Nat × List Char) :=
  match cs with
  | '.' :: rest =>
      let ds := rest.takeWhile Char.isDigit
      if ds.isEmpty then none
      else some (ds.map (fun c => c.toNat - 48), rest.dropWhile Char.isDigit)
  | cs => some ([], cs)

/-- A time of day; there may be a leap second. -/
def clock? (cs : List Char) : Option (Clock × List Char) := do
  let (hour, cs) ← field? 2 0 23 cs
  let (minute, cs) ← field? 2 0 59 (← skipChar? ':' cs)
  let (second, cs) ← field? 2 0 60 (← skipChar? ':' cs)
  let (fraction, cs) ← fraction? cs
  return (⟨hour, minute, second, fraction⟩, cs)

/-- An offset from universal time, or none. -/
def offset? (cs : List Char) : Option (Option Int × List Char) :=
  match cs with
  | 'Z' :: rest => some (some 0, rest)
  | 'z' :: rest => some (some 0, rest)
  | c :: rest =>
      if c = '+' || c = '-' then do
        let (hour, cs) ← field? 2 0 23 rest
        let (minute, cs) ← field? 2 0 59 (← skipChar? ':' cs)
        let size : Int := hour * 60 + minute
        return (some (if c = '-' then -size else size), cs)
      else some (none, c :: rest)
  | [] => some (none, [])

/-- The time behind a date, and its offset. Without a time the date stands alone. -/
def timeBehind? (cs : List Char) : Option ((Option Clock × Option Int) × List Char) :=
  match cs with
  | c :: rest =>
      if c = 'T' || c = 't' || c = ' ' then
        match clock? rest with
        | some (clock, rest) => (offset? rest).map fun (o, r) => ((some clock, o), r)
        | none => some ((none, none), cs)
      else some ((none, none), cs)
  | [] => some ((none, none), [])

/-- A date, a time of day, or both. -/
def moment? (cs : List Char) : Option (Moment × List Char) :=
  match date? cs with
  | some (date, rest) =>
      (timeBehind? rest).map fun ((clock, offset), r) => (⟨some date, clock, offset⟩, r)
  | none => (clock? cs).map fun (clock, r) => (⟨none, some clock, none⟩, r)

/-! ## Numbers -/

/-- An integer in the range of 64 bits. -/
def inRange (i : Int) : Option Toml :=
  if Int64.minValue.toInt ≤ i ∧ i ≤ Int64.maxValue.toInt then some (.int i) else none

/-- A magnitude `n · 10^e` rounded to double precision. Powers beyond every value are not formed. -/
def roundDecimal (n : Nat) (e : Int) : Nat :=
  let digits : Int := (Nat.toDigits 10 n).length
  if n = 0 || digits + e < -330 then 0
  else if 310 < digits + e then BinaryFormat.double.infinity
  else if 0 ≤ e then BinaryFormat.double.round (n * Nat.pow 10 e.toNat) 1
  else BinaryFormat.double.round n (Nat.pow 10 (-e).toNat)

/-- A floating-point number out of its digits. -/
def floatOf (negative : Bool) (whole fraction : List Nat) (exponent : Int) : Option Toml :=
  let code := roundDecimal (valueIn 10 (whole ++ fraction)) (exponent - fraction.length)
  if code = BinaryFormat.double.infinity && !negative then none
  else some (.float (.ofCode negative code))

/-- The fraction behind a point, or none. -/
def pointPart? (cs : List Char) : Option (Option (List Nat) × List Char) :=
  match cs with
  | '.' :: rest => (someDigits? 10 rest).map fun (ds, r) => (some ds, r)
  | cs => some (none, cs)

/-- The exponent behind its letter, or none. -/
def exponentPart? (cs : List Char) : Option (Option Int × List Char) :=
  match cs with
  | c :: rest =>
      if c = 'e' || c = 'E' then
        let (negative, rest) := sign rest
        (someDigits? 10 rest).map fun (ds, r) =>
          (some (if negative then -(valueIn 10 ds : Int) else valueIn 10 ds), r)
      else some (none, c :: rest)
  | [] => some (none, [])

/-- An infinity or a non-number, by its word. -/
def special? (negative : Bool) (cs : List Char) : Option (Toml × List Char) :=
  match cs with
  | 'i' :: 'n' :: 'f' :: rest =>
      some (.float (.ofCode negative BinaryFormat.double.infinity), rest)
  | 'n' :: 'a' :: 'n' :: rest =>
      some (.float (.ofCode negative BinaryFormat.double.nonNumber), rest)
  | _ => none

/-- A decimal number behind its sign. -/
def decimal? (negative : Bool) (cs : List Char) : Option (Toml × List Char) := do
  let (whole, cs) ← wholeDigits? cs
  let (fraction, cs) ← pointPart? cs
  let (exponent, cs) ← exponentPart? cs
  let value ←
    if fraction.isNone && exponent.isNone then
      inRange (if negative then -(valueIn 10 whole : Int) else valueIn 10 whole)
    else floatOf negative whole (fraction.getD []) (exponent.getD 0)
  return (value, cs)

/-- A whole number in another base, behind the mark of the base. -/
def based? (base : Nat) (cs : List Char) : Option (Toml × List Char) := do
  let (ds, cs) ← someDigits? base cs
  return (← inRange (valueIn base ds), cs)

/-- A number. -/
def number? (cs : List Char) : Option (Toml × List Char) :=
  match cs with
  | '0' :: 'x' :: rest => based? 16 rest
  | '0' :: 'o' :: rest => based? 8 rest
  | '0' :: 'b' :: rest => based? 2 rest
  | cs =>
      let (negative, rest) := sign cs
      match special? negative rest with
      | some r => some r
      | none => decimal? negative rest

end MetricFanout.Toml
