import LayeredConfig.Chars.Digits
import LayeredConfig.Json.Basic

/-!
# LayeredConfig — JSON numbers

A number without fraction and exponent is kept as a whole number as long as
its digits fit in 64 bits and, when negative, as long as it is below zero and
not below `-2⁶³`. Every other number is a float. It is read fast
rather than exactly: the digits that fit in 64 bits become a float, which is
multiplied by or divided by a power of ten. That may be off in the last bit.

* `Json.significant` — the digits that fit.
* `Json.scale?`      — a float times a power of ten.
* `Json.number`      — the parser.
-/

namespace LayeredConfig

namespace Json

/-- The largest significand: what fits in 64 bits. -/
def maxSignificand : Nat := UInt64.size - 1

/-- The largest number that can be written as an exponent. -/
def maxExponent : Nat := Int32.maxValue.toInt.toNat

/-- The number that `start` becomes as digits are appended for as long as the
result fits, and the digits left over. -/
def significant (start : Nat) : List Char → Nat × List Char
  | [] => (start, [])
  | c :: rest =>
    let next := 10 * start + Chars.digitValue c
    if next ≤ maxSignificand then significant next rest else (start, c :: rest)

/-- The power of ten as a float. -/
def powerOfTen (n : Nat) : Float := Float.ofScientific 1 false n

/-- `x · 10 ^ exponent` in steps of at most `10³⁰⁸`; none where that is too
large for a float. -/
def scale? (x : Float) (exponent : Int) : Option Float :=
  if exponent < -308 then
    if x == 0 then some x
    else scale? (x / powerOfTen 308) (exponent + 308)
  else if exponent < 0 then some (x / powerOfTen exponent.natAbs)
  else if exponent ≤ 308 then
    let scaled := x * powerOfTen exponent.natAbs
    if scaled.isInf then none else some scaled
  else if x == 0 then some x
  else none
termination_by (-exponent).toNat

/-- A float with its sign. -/
def withSign (negative : Bool) (x : Float) : Float := if negative then -x else x

/-- A number as it is written. -/
structure Numeral where
  negative : Bool
  whole : List Char
  fraction : Option (List Char)
  /-- Whether the exponent is negative, and its digits. -/
  exponent : Option (Bool × List Char)

namespace Numeral

/-- The number as a float: digits of the whole part that do not fit count
into the exponent, those of the fraction are dropped. An exponent past all
bounds makes zero, or is refused. -/
def float? (n : Numeral) : Option Float :=
  let (start, uncounted) := significant 0 n.whole
  let fraction := n.fraction.getD []
  let (significand, dropped) := significant start fraction
  let shift : Int := uncounted.length - (fraction.length - dropped.length : Nat)
  let (down, digits) := n.exponent.getD (false, [])
  let magnitude :=
    let power := Chars.ofDigits 10 digits
    if power ≤ maxExponent then
      scale? (Float.ofNat significand) (if down then shift - power else shift + power)
    else if significand ≠ 0 && !down then none
    else some 0
  magnitude.map (withSign n.negative)

/-- The scalar that a number stands for. -/
def scalar? (n : Numeral) : Option JsonScalar :=
  let magnitude := Chars.ofDigits 10 n.whole
  if n.fraction.isSome || n.exponent.isSome || maxSignificand < magnitude then
    n.float?.map .float
  else if !n.negative then some (.integer magnitude)
  else if 0 < magnitude && Int64.minValue.toInt ≤ -magnitude then some (.integer (-magnitude))
  else some (.float (-Float.ofNat magnitude))

end Numeral

-- ---------------------------------------------------------------------------
-- Grammar
-- ---------------------------------------------------------------------------

/-- At least one digit. -/
def digits : Parser (List Char) := Parser.takeWhile1 Char.isDigit

/-- A single zero, or digits that do not start with one. -/
def wholeDigits : Parser (List Char) := do
  let ds ← digits
  if ds.head? == some '0' && ds.length != 1 then failure else pure ds

/-- A sign and whether it is a minus. -/
def exponentSign : Parser Bool :=
  (do Parser.char '-'; pure true) <|> (do Parser.char '+'; pure false) <|> pure false

/-- A number: what starts a fraction or an exponent has to end one. -/
def number : Parser JsonScalar := do
  let negative := (← Parser.optional (Parser.char '-')).isSome
  let whole ← wholeDigits
  let fraction ←
    match ← Parser.peek with
    | some '.' => do
      Parser.char '.'
      some <$> digits
    | _ => pure none
  let exponent ←
    match ← Parser.peek with
    | some 'e' | some 'E' => do
      let _ ← Parser.satisfy (fun c => c == 'e' || c == 'E')
      let down ← exponentSign
      some <$> (Prod.mk down <$> digits)
    | _ => pure none
  match (Numeral.mk negative whole fraction exponent).scalar? with
  | some scalar => pure scalar
  | none => failure

end Json

end LayeredConfig
