import LayeredConfig.Chars.Digits
import LayeredConfig.Decimal.Reading
import LayeredConfig.Toml.Basic

/-!
# LayeredConfig — TOML numbers

Digits may have single underscores between them. A whole number is decimal
with an optional sign and no leading zeros, or has a base of sixteen, eight or
two and no sign; it has to fit in 64 bits. A float has a fraction, an exponent
or both, and is read exactly; one too large to be finite is refused if it is
positive, and is negative infinity if it is negative.

* `Toml.integer` — a whole number.
* `Toml.float`   — a float.
-/

namespace LayeredConfig

namespace Toml

/-- At least one digit, with single underscores between digits. -/
def digits (base : Nat) : Parser (List Char) := do
  let first ← Parser.satisfy (Chars.isDigitOf base)
  let more ← Parser.many <|
    Parser.satisfy (Chars.isDigitOf base) <|> do
      Parser.char '_'
      Parser.satisfy (Chars.isDigitOf base)
  return first :: more

/-- Decimal digits: a single zero, or digits that do not start with one. -/
def wholeDigits : Parser (List Char) := do
  match ← Parser.peek with
  | some '0' => do
    Parser.char '0'
    pure ['0']
  | _ => digits 10

/-- A sign and whether it is a minus. -/
def sign : Parser Bool :=
  (do Parser.char '-'; pure true) <|> (do Parser.char '+'; pure false) <|> pure false

-- ---------------------------------------------------------------------------
-- Whole numbers
-- ---------------------------------------------------------------------------

/-- A number that fits in 64 bits with its sign. -/
def fitting (n : Int) : Parser Int64 :=
  if Int64.minValue.toInt ≤ n ∧ n ≤ Int64.maxValue.toInt then pure (Int64.ofInt n) else failure

/-- A whole number in a base, with a zero and a letter in front. -/
def based (letter : Char) (base : Nat) : Parser Int64 := do
  Parser.chars ['0', letter]
  let ds ← digits base
  fitting (Chars.ofDigits base ds)

/-- A whole number. -/
def integer : Parser Int64 :=
  based 'x' 16 <|> based 'o' 8 <|> based 'b' 2 <|> do
    let negative ← sign
    let n := Chars.ofDigits 10 (← wholeDigits)
    fitting (if negative then -(n : Int) else n)

-- ---------------------------------------------------------------------------
-- Floats
-- ---------------------------------------------------------------------------

/-- A fraction: a point and digits. -/
def fraction : Parser (List Char) := do
  Parser.char '.'
  digits 10

/-- An exponent of ten. -/
def exponent : Parser Int := do
  let _ ← Parser.satisfy (fun c => c == 'e' || c == 'E')
  let negative ← sign
  let n := Chars.ofDigits 10 (← digits 10)
  return if negative then -(n : Int) else n

/-- A float written with a fraction, an exponent or both. -/
def writtenFloat : Parser Float := do
  let negative ← sign
  let whole ← wholeDigits
  let places ← Parser.optional fraction
  let power ← if places.isSome then Parser.optional exponent else some <$> exponent
  let places := places.getD []
  let magnitude :=
    Decimal.toFloat ⟨Chars.ofDigits 10 (whole ++ places), power.getD 0 - places.length⟩
  if negative then pure (-magnitude)
  else if magnitude.isInf then failure
  else pure magnitude

/-- Infinity or not a number, with an optional sign. -/
def namedFloat : Parser Float := do
  let negative ← sign
  let x ← (do Parser.chars "inf".toList; pure (1 / 0 : Float))
    <|> (do Parser.chars "nan".toList; pure (0 / 0 : Float))
  return if negative then -x else x

/-- A float. -/
def float : Parser Float := writtenFloat <|> namedFloat

end Toml

end LayeredConfig
