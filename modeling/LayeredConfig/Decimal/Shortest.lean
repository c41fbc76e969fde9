import LayeredConfig.Decimal.Basic

/-!
# LayeredConfig — the shortest decimal that reads back

The reals that round to a binary number form an interval around it. Of the
decimals in that interval, the one to write has the fewest digits, and of
those it is the nearest to the number. When two are equally near, a `Tie`
says which.

The search goes through the grids of one digit, two digits and so on. If any
point of a grid lies in the interval, one of the number's two neighbours on
that grid does, so these two are all that has to be tried. All arithmetic is
exact.

* `Decimal.shortest` — the decimal.
-/

namespace LayeredConfig

/-- Which of two equally near decimals is taken. -/
inductive Tie where
  | up
  | even
  deriving DecidableEq, Repr

/-- A number and the interval of reals that round to it, over one
denominator. The ends belong to the interval when `closed`. -/
structure RoundingInterval where
  low : Nat
  value : Nat
  high : Nat
  unit : Nat
  closed : Bool

namespace RoundingInterval

/-- The interval reaches half way to each neighbour; its ends round to the
number when the significand is even. -/
def ofBinary (x : Binary) : RoundingInterval :=
  let up := Nat.pow 2 (x.exponent - 2).toNat
  { low := (4 * x.significand - if x.thinBelow then 1 else 2) * up
    value := 4 * x.significand * up
    high := (4 * x.significand + 2) * up
    unit := Nat.pow 2 (2 - x.exponent).toNat
    closed := x.significand % 2 == 0 }

/-- The interval measured in units of `10 ^ g`. -/
def scale (r : RoundingInterval) (g : Int) : RoundingInterval :=
  let down := Nat.pow 10 (-g).toNat
  { r with
    low := r.low * down
    value := r.value * down
    high := r.high * down
    unit := r.unit * Nat.pow 10 g.toNat }

/-- Whether `n` units lie in the interval. -/
def contains (r : RoundingInterval) (n : Nat) : Bool :=
  if r.closed then r.low ≤ n * r.unit && n * r.unit ≤ r.high
  else r.low < n * r.unit && n * r.unit < r.high

/-- The exponent of ten of the number's leading digit. -/
def leadingExponent (r : RoundingInterval) : Int :=
  if r.unit ≤ r.value then (Decimal.digitCount (r.value / r.unit) : Int) - 1
  else -(Decimal.digitCount ((r.unit - 1) / r.value) : Int)

/-- Of the whole numbers of units on both sides of the value, the one in the
interval, or the nearer if both are. -/
def nearest? (tie : Tie) (r : RoundingInterval) : Option Nat :=
  let below := r.value / r.unit
  let above := below + 1
  match r.contains below, r.contains above with
  | false, false => none
  | true, false => some below
  | false, true => some above
  | true, true =>
    let rest := 2 * (r.value % r.unit)
    if rest < r.unit then some below
    else if r.unit < rest then some above
    else match tie with
      | .up => some above
      | .even => some (if below % 2 = 0 then below else above)

end RoundingInterval

namespace Decimal

/-- The decimal of fewest digits that reads back as `x`, and of those the
nearest. Seventeen digits always suffice. -/
def shortest (tie : Tie) (x : Binary) : Decimal :=
  if x.significand = 0 then ⟨0, 0⟩
  else
    let r := RoundingInterval.ofBinary x
    let top := r.leadingExponent
    let onGrid (places : Nat) : Option Decimal :=
      let g : Int := top - places
      ((r.scale g).nearest? tie).map (fun n => normalize ⟨n, g⟩)
    ((List.range 17).findSome? onGrid).getD ⟨0, 0⟩

end Decimal

end LayeredConfig
