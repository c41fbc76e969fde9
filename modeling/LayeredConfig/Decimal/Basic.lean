/-!
# LayeredConfig — decimals and binary numbers

A finite binary64 number is `significand · 2 ^ exponent`; a decimal is
`digits · 10 ^ exponent`. This module holds the two forms and reads the first
one off the bits of a float.
-/

namespace LayeredConfig

/-- The number `digits · 10 ^ exponent`. -/
structure Decimal where
  digits : Nat
  exponent : Int
  deriving DecidableEq, Repr

/-- The number `significand · 2 ^ exponent` together with how far its
neighbours of the same format are: one unit of `2 ^ exponent` above, and one
below unless `thinBelow`, where it is half a unit. -/
structure Binary where
  significand : Nat
  exponent : Int
  thinBelow : Bool
  deriving DecidableEq, Repr

/-- What the bits of a float say. -/
inductive FloatParts where
  | nan
  | infinite (negative : Bool)
  | finite (negative : Bool) (magnitude : Binary)
  deriving DecidableEq, Repr

namespace FloatParts

/-- The parts of a binary64 number: a sign bit, eleven bits of exponent and
fifty-two of fraction. Where the fraction is zero and the exponent is not the
least one, the neighbour below is half as far as the one above. -/
def ofFloat (x : Float) : FloatParts :=
  let bits := x.toBits.toNat
  let negative := bits / Nat.pow 2 63 == 1
  let biased := bits / Nat.pow 2 52 % Nat.pow 2 11
  let fraction := bits % Nat.pow 2 52
  if biased = 2047 then
    if fraction = 0 then .infinite negative else .nan
  else if biased = 0 then
    .finite negative ⟨fraction, -1074, false⟩
  else
    .finite negative ⟨Nat.pow 2 52 + fraction, Int.ofNat biased - 1075, fraction == 0 && biased != 1⟩

end FloatParts

namespace Decimal

/-- How many decimal digits a number has; zero has one. -/
def digitCount (n : Nat) : Nat := (Nat.toDigits 10 n).length

/-- The decimal without trailing zeros in its digits. -/
def normalize (d : Decimal) : Decimal :=
  let zeros := ((Nat.toDigits 10 d.digits).reverse.takeWhile (· == '0')).length
  if d.digits = 0 then ⟨0, 0⟩
  else ⟨d.digits / Nat.pow 10 zeros, d.exponent + zeros⟩

end Decimal

end LayeredConfig
