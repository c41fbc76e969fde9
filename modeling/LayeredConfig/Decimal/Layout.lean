import LayeredConfig.Decimal.Shortest

/-!
# LayeredConfig — number layouts

A `Layout` says how a float is written once its digits are chosen: between
which exponents the notation is positional, what an integral number ends in,
and which way ties go. Each format that writes numbers has a layout of its
own.

* `Layout.write` — a decimal in a layout.
* `Layout.float` — a finite float in a layout, with its sign.
-/

namespace LayeredConfig

/-- How numbers are written. The exponents are those of the leading digit. -/
structure Layout where
  /-- Which of two equally near digit strings is written. -/
  tie : Tie
  /-- The least exponent in positional notation, if there is one. -/
  positionalFrom : Option Int
  /-- The first exponent above positional notation, if there is one. -/
  positionalBelow : Option Int
  /-- What a number in positional notation without a fraction ends in. -/
  integralEnd : String
  deriving Repr

namespace Layout

/-- Whether a number whose leading digit has this exponent of ten is written
positionally. -/
def isPositional (layout : Layout) (exponent : Int) : Bool :=
  layout.positionalFrom.all (· ≤ exponent) && layout.positionalBelow.all (exponent < ·)

/-- Digits with the point in its place, counted from the left. -/
def positional (layout : Layout) (digits : List Char) (exponent : Int) : String :=
  let point := digits.length + exponent
  if 0 ≤ exponent then
    String.ofList (digits ++ List.replicate exponent.toNat '0') ++ layout.integralEnd
  else if 0 < point then
    String.ofList (digits.take point.toNat ++ '.' :: digits.drop point.toNat)
  else
    String.ofList ('0' :: '.' :: (List.replicate (-point).toNat '0' ++ digits))

/-- One digit before the point, the others after it, and a signed exponent. -/
def scientific (digits : List Char) (leading : Int) : String :=
  let mantissa :=
    match digits with
    | [] => []
    | [d] => [d]
    | d :: rest => d :: '.' :: rest
  let sign := if leading < 0 then "e-" else "e+"
  String.ofList mantissa ++ sign ++ Nat.repr leading.natAbs

/-- A decimal in this layout. -/
def write (layout : Layout) (d : Decimal) : String :=
  let digits := Nat.toDigits 10 d.digits
  let leading := d.exponent + digits.length - 1
  if layout.isPositional leading then layout.positional digits d.exponent
  else scientific digits leading

/-- A finite number with its sign; the sign of zero is kept. -/
def signed (layout : Layout) (negative : Bool) (x : Binary) : String :=
  (if negative then "-" else "") ++ layout.write (Decimal.shortest layout.tie x)

/-- A float in this layout, if it is finite. -/
def float? (layout : Layout) (x : Float) : Option String :=
  match FloatParts.ofFloat x with
  | .finite negative magnitude => some (layout.signed negative magnitude)
  | _ => none

end Layout

end LayeredConfig
