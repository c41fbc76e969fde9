import LayeredConfig.Decimal.Basic

/-!
# LayeredConfig — the float nearest to a decimal

A decimal is read exactly: the result is the float nearest to it, and of two
equally near ones the one with the even significand. A decimal far above all
finite floats reads as infinity, and one far below the least one as zero.
-/

namespace LayeredConfig

namespace Decimal

/-- Decimals whose leading digit has a greater exponent of ten are infinite,
those where it is less than the negative of this are zero. -/
def reach : Int := 400

/-- The float nearest to a decimal. Its size is looked at first, so a decimal
with a huge exponent takes no time. -/
def toFloat (d : Decimal) : Float :=
  let size := d.exponent + digitCount d.digits
  if d.digits = 0 then 0
  else if reach < size then 1 / 0
  else if size < -reach then 0
  else Float.ofScientific d.digits (d.exponent < 0) d.exponent.natAbs

end Decimal

end LayeredConfig
