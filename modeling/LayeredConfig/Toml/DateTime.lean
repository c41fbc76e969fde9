import LayeredConfig.Chars.Digits

/-!
# LayeredConfig — dates and times

A date-time is a date, a time of day, or both, and with both perhaps an offset
from universal time.

* `DateTime.parser`  — reads one, and `DateTime.ofString?` a whole text.
* `DateTime.written` — writes one: with a `T` between date and time, no zeros
  at the end of a fraction, and an offset of zero minutes with a plus sign.
-/

namespace LayeredConfig

/-- A day of the calendar. -/
structure Date where
  year : Nat
  month : Nat
  day : Nat
  deriving DecidableEq, Repr

/-- A time of day; a leap second has number 60. -/
structure TimeOfDay where
  hour : Nat
  minute : Nat
  second : Nat
  nanosecond : Nat
  deriving DecidableEq, Repr

/-- How far a clock is from universal time. -/
inductive UtcOffset where
  | zulu
  | minutes (east : Int)
  deriving DecidableEq, Repr

/-- A date, a time of day, or both, perhaps with an offset. -/
inductive DateTime where
  | date (d : Date)
  | time (t : TimeOfDay)
  | both (d : Date) (t : TimeOfDay) (offset : Option UtcOffset)
  deriving DecidableEq, Repr

namespace Date

/-- A year with a day more. -/
def isLeap (year : Nat) : Bool := year % 4 == 0 && (year % 100 != 0 || year % 400 == 0)

/-- How many days a month has. -/
def daysIn (year month : Nat) : Nat :=
  if month = 2 then (if isLeap year then 29 else 28)
  else if month ∈ [4, 6, 9, 11] then 30
  else 31

/-- The date is a day of the calendar. -/
def isValid (d : Date) : Bool :=
  1 ≤ d.month && d.month ≤ 12 && 1 ≤ d.day && d.day ≤ daysIn d.year d.month

end Date

-- ---------------------------------------------------------------------------
-- Writing
-- ---------------------------------------------------------------------------

/-- A number with zeros in front, at least `width` digits. -/
def padded (width n : Nat) : String :=
  let digits := Nat.toDigits 10 n
  String.ofList (List.replicate (width - digits.length) '0' ++ digits)

namespace Date

/-- The date as `YYYY-MM-DD`. -/
def written (d : Date) : String :=
  padded 4 d.year ++ "-" ++ padded 2 d.month ++ "-" ++ padded 2 d.day

end Date

namespace TimeOfDay

/-- The digits of a fraction of a second, without zeros at the end. -/
def fraction (t : TimeOfDay) : String :=
  if t.nanosecond = 0 then ""
  else
    let digits := (padded 9 t.nanosecond).toList
    "." ++ String.ofList (digits.reverse.dropWhile (· == '0')).reverse

/-- The time as `HH:MM:SS`, with a fraction if there is one. -/
def written (t : TimeOfDay) : String :=
  padded 2 t.hour ++ ":" ++ padded 2 t.minute ++ ":" ++ padded 2 t.second ++ t.fraction

end TimeOfDay

namespace UtcOffset

/-- The offset as `Z` or `±HH:MM`. -/
def written : UtcOffset → String
  | zulu => "Z"
  | minutes east =>
    let size := east.natAbs
    (if east < 0 then "-" else "+") ++ padded 2 (size / 60) ++ ":" ++ padded 2 (size % 60)

end UtcOffset

namespace DateTime

/-- The date-time as text. -/
def written : DateTime → String
  | date d => d.written
  | time t => t.written
  | both d t offset => d.written ++ "T" ++ t.written ++ (offset.map UtcOffset.written).getD ""

end DateTime

-- ---------------------------------------------------------------------------
-- Reading
-- ---------------------------------------------------------------------------

namespace DateTime

/-- A number of exactly `width` digits, at most `limit`. -/
def fixed (width limit : Nat) : Parser Nat := do
  let n := Chars.ofDigits 10 (← Parser.count width Char.isDigit)
  if n ≤ limit then pure n else failure

/-- A day of the calendar. -/
def dateParser : Parser Date := do
  let year ← fixed 4 9999
  Parser.char '-'
  let month ← fixed 2 12
  Parser.char '-'
  let day ← fixed 2 31
  let d : Date := ⟨year, month, day⟩
  if d.isValid then pure d else failure

/-- A fraction of a second in nanoseconds; digits past the ninth are dropped. -/
def fractionParser : Parser Nat := do
  Parser.char '.'
  let digits := (← Parser.takeWhile1 Char.isDigit).take 9
  return Chars.ofDigits 10 digits * Nat.pow 10 (9 - digits.length)

/-- A time of day, always with seconds. -/
def timeParser : Parser TimeOfDay := do
  let hour ← fixed 2 23
  Parser.char ':'
  let minute ← fixed 2 59
  Parser.char ':'
  let second ← fixed 2 60
  let nanosecond ← Parser.optional fractionParser
  return ⟨hour, minute, second, nanosecond.getD 0⟩

/-- An offset from universal time. -/
def offsetParser : Parser UtcOffset := do
  match ← Parser.satisfy (fun c => c == 'Z' || c == 'z' || c == '+' || c == '-') with
  | 'Z' | 'z' => pure .zulu
  | sign => do
    let hour ← fixed 2 23
    Parser.char ':'
    let minute ← fixed 2 59
    let size : Int := Int.ofNat (60 * hour + minute)
    return .minutes (if sign == '-' then -size else size)

/-- What stands behind a date: a time, and perhaps an offset. -/
def timeBehindDate : Parser (TimeOfDay × Option UtcOffset) := do
  let _ ← Parser.satisfy (fun c => c == 'T' || c == 't' || c == ' ')
  let time ← timeParser
  return (time, ← Parser.optional offsetParser)

/-- A date, with a time if one follows, or a time alone. -/
def parser : Parser DateTime :=
  (do
    let d ← dateParser
    match ← Parser.optional timeBehindDate with
    | some (t, offset) => pure (both d t offset)
    | none => pure (date d)) <|>
  (time <$> timeParser)

/-- The date-time that a text writes. -/
def ofString? (text : String) : Option DateTime := Parser.whole parser text.toList

end DateTime

end LayeredConfig
