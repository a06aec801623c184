/-!
# Doubles as whole numbers of least units

The least positive double is `2^-1074`, and every finite double is a whole number of these units:
its *significand* times two to its *scale*. Read as a natural number, the bits below the sign
satisfy

  `bits = scale * 2^52 + significand`,

with no case for subnormal numbers, because scale zero covers them and the first binade alike.
Rounding, decoding and comparison are therefore exact arithmetic on naturals, and `nearest` is the
whole of rounding to nearest, ties to even.
-/

namespace BranchPaint.Double

/-- How many least units make one. -/
def unitsPerOne : Nat := Nat.pow 2 1074

/-- The bits of infinity; the bits of all finite magnitudes lie below. -/
def infinityBits : Nat := 0x7FF0000000000000

/-- The bits of a number below its sign. -/
def magnitudeBits (x : Float) : Nat := x.toBits.toNat % Nat.pow 2 63

/-- Is the sign bit set? Zeros have signs too. -/
def isNegative (x : Float) : Bool := Nat.pow 2 63 ≤ x.toBits.toNat

/-- The number with the given sign and bits below it. -/
def ofMagnitudeBits (negative : Bool) (bits : Nat) : Float :=
  Float.ofBits (UInt64.ofNat (if negative then bits + Nat.pow 2 63 else bits))

/-- The power of two that a finite magnitude is a multiple of. -/
def scale (bits : Nat) : Nat := bits / Nat.pow 2 52 - 1

/-- The multiple. -/
def significand (bits : Nat) : Nat := bits - scale bits * Nat.pow 2 52

/-- A finite magnitude in least units. -/
def units (bits : Nat) : Nat := significand bits * Nat.pow 2 (scale bits)

/-- The quotient rounded to the nearest whole number, a half to the even one. -/
def roundDiv (p q : Nat) : Nat :=
  let below := p / q
  let twice := 2 * (p % q)
  if twice < q || (twice = q && below % 2 = 0) then below else below + 1

/-- The bits of the double nearest to `num / den`, a tie going to the even significand, and infinity
from half a unit above the largest double. The scale leaves 53 binary digits before the point, or
fewer for numbers below the first binade; a significand rounded up to `2^53` carries into the scale
by itself. -/
def nearest (num den : Nat) : Nat :=
  let x := num * unitsPerOne
  let s := (x / den).log2 - 52
  min (s * Nat.pow 2 52 + roundDiv x (den * Nat.pow 2 s)) infinityBits

/-- The number with the given sign nearest to `num / den`. -/
def ofRatio (negative : Bool) (num den : Nat) : Float :=
  ofMagnitudeBits negative (nearest num den)

/-- The whole number of units that a magnitude of `bits` is, cut down to whole ones. -/
def wholePart (bits : Nat) : Nat := units bits / unitsPerOne

/-- Is a finite magnitude a whole number? -/
def isWhole (bits : Nat) : Bool := units bits % unitsPerOne = 0

/-- The remainder of a division that rounds toward zero. It is exact, takes the sign of the
dividend, and is no number if the dividend is infinite, the divisor zero or either no number. -/
def remainder (x y : Float) : Float :=
  if x.isFinite && !y.isNaN && y != 0 then
    if y.isInf then x
    else
      ofRatio (isNegative x) (units (magnitudeBits x) % units (magnitudeBits y)) unitsPerOne
  else
    0 / 0

/-- A number modulo `2^32`, cut to a whole number first. Infinities and no number count as zero. -/
def wrap32 (x : Float) : Nat :=
  if x.isFinite then
    let n := wholePart (magnitudeBits x) % Nat.pow 2 32
    if isNegative x then (Nat.pow 2 32 - n) % Nat.pow 2 32 else n
  else 0

/-- All 32 bits of a number turned over, the result read as a signed number: `-1 - n` wrapped. -/
def complement32 (x : Float) : Float :=
  let n := wrap32 x
  if n < Nat.pow 2 31 then Float.ofInt (-1 - (n : Int))
  else Float.ofInt (Nat.pow 2 32 - 1 - (n : Int))

end BranchPaint.Double
