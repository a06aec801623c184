import BranchPaint.Number.Double
import BranchPaint.Source.Cursor

/-!
# Decimals

A decimal is a natural number times a power of ten. Here decimals are read from text, turned into
the nearest double, and found for a double: the fewest digits that read back as it.

The search is its own specification. It goes through the decimal grids from coarse to fine and keeps
the first one on which a neighbour of the number *reads back as the number*, so what it returns
reads back by construction. Should no grid of seventeen digits have such a neighbour, the exact
decimal expansion is the answer, and that reads back too.
-/

namespace BranchPaint

/-- The number `digits * 10 ^ exponent`. -/
structure Decimal where
  digits : Nat
  exponent : Int
deriving Repr, DecidableEq

namespace Decimal

/-! ## Reading -/

/-- The value of a run of decimal digits. -/
def ofDigits (ds : List Char) : Nat :=
  ds.foldl (fun n c => 10 * n + (c.toNat - '0'.toNat)) 0

/-- The power of ten behind an exponent mark: an optional sign and at least one digit. -/
def scanExponent? (s : Cursor) : Option (Int × Cursor) :=
  let (negative, s) :=
    match s.literal? ['+'], s.literal? ['-'] with
    | some s, _ => (false, s)
    | none, some s => (true, s)
    | none, none => (false, s)
  match s.takeWhile Char.isDigit with
  | ([], _) => none
  | (ds, s) => some (if negative then -(ofDigits ds : Int) else ofDigits ds, s)

/-- Applies an exponent part, if one follows; an exponent mark without digits is not part of the
number. -/
def scanScale (d : Decimal) (s : Cursor) : Decimal × Cursor :=
  match (s.literal? ['e']).or (s.literal? ['E']) with
  | none => (d, s)
  | some marked =>
    match scanExponent? marked with
    | none => (d, s)
    | some (e, s) => (⟨d.digits, d.exponent + e⟩, s)

/-- The longest decimal at the front: digits, optionally a point and further digits, or a point and
at least one digit; then optionally an exponent. -/
def scan? (s : Cursor) : Option (Decimal × Cursor) :=
  match s.takeWhile Char.isDigit with
  | ([], _) =>
    match s.literal? ['.'] with
    | none => none
    | some s =>
      match s.takeWhile Char.isDigit with
      | ([], _) => none
      | (fs, s) => some (scanScale ⟨ofDigits fs, -(fs.length : Int)⟩ s)
  | (ds, s) =>
    match s.literal? ['.'] with
    | none => some (scanScale ⟨ofDigits ds, 0⟩ s)
    | some s =>
      let (fs, s) := s.takeWhile Char.isDigit
      some (scanScale ⟨ofDigits (ds ++ fs), -(fs.length : Int)⟩ s)

/-! ## The nearest double -/

/-- The bits of the nearest double. The two guards answer for exponents so large or so small that
the result is certain, and keep the powers of ten within bounds: `10 ^ 400` is beyond every double,
and a number below `2 ^ n` times `10 ^ -k` is below `2 ^ (n - 3 * k)`. -/
def nearestBits (d : Decimal) : Nat :=
  if d.digits = 0 then 0
  else
    match d.exponent with
    | .ofNat e =>
      if 400 < e then Double.infinityBits
      else Double.nearest (d.digits * Nat.pow 10 e) 1
    | .negSucc e =>
      if d.digits.log2 + 1 + 1075 < 3 * (e + 1) then 0
      else Double.nearest d.digits (Nat.pow 10 (e + 1))

/-- The nearest double with the given sign. -/
def toFloat (d : Decimal) (negative : Bool) : Float :=
  Double.ofMagnitudeBits negative d.nearestBits

/-- The number that all of `text` is, with an optional sign in front. -/
def readFloat? (text : String) : Option Float :=
  let s := Cursor.ofString text
  let (negative, s) :=
    match s.literal? ['+'], s.literal? ['-'] with
    | some s, _ => (false, s)
    | none, some s => (true, s)
    | none, none => (false, s)
  match scan? s with
  | some (d, ⟨[], _⟩) => some (d.toFloat negative)
  | _ => none

/-- A name of infinity or of no number, in any case. -/
def namedFloat? (word : List Char) : Option Float :=
  match String.ofList (word.map Char.toLower) with
  | "inf" | "infinity" => some (1 / 0)
  | "nan" => some (0 / 0)
  | _ => none

/-- The number that all of `text` is, where infinity and no number may be named. -/
def readNamedFloat? (text : String) : Option Float :=
  match text.toList with
  | '-' :: word => ((namedFloat? word).map fun x => -x).or (readFloat? text)
  | '+' :: word => (namedFloat? word).or (readFloat? text)
  | word => (namedFloat? word).or (readFloat? text)

/-! ## The fewest digits -/

/-- The number of decimal digits of `n`; zero has none. -/
def digitCount (n : Nat) : Nat :=
  if n = 0 then 0 else (Nat.toDigits 10 n).length

/-- The least `k` with `num / den < 10 ^ k`, for a positive quotient. -/
def magnitude (num den : Nat) : Int :=
  if den ≤ num then digitCount (num / den) else 1 - (digitCount ((den - 1) / num) : Int)

/-- The quotient `num / den` as a fraction of the grid `10 ^ g`: numerator and denominator. -/
def onGrid (num den : Nat) (g : Int) : Nat × Nat :=
  (num * Nat.pow 10 (-g).toNat, den * Nat.pow 10 g.toNat)

/-- Of two decimals, one that reads back as the double: if both do, the first where `first` says
so. -/
def reading? (bits : Nat) (below above : Decimal) (first : Bool) : Option Decimal :=
  match below.nearestBits == bits, above.nearestBits == bits with
  | true, true => some (if first then below else above)
  | true, false => some below
  | false, true => some above
  | false, false => none

/-- Of the two neighbours of a double on the grid `10 ^ g`, one that reads back as it: the nearer
one if both do, and the one above if they are equally near. -/
def neighbour? (bits : Nat) (g : Int) : Option Decimal :=
  let q := onGrid (Double.units bits) Double.unitsPerOne g
  let n := q.1 / q.2
  reading? bits ⟨n, g⟩ ⟨n + 1, g⟩ (2 * q.1 < (2 * n + 1) * q.2)

/-- A double written out in full: a power of two in the denominator is a power of ten, with as many
fives in the numerator. -/
def exact (bits : Nat) : Decimal :=
  ⟨Double.units bits * Nat.pow 5 1074, -1074⟩

/-- The fewest digits that read back as a positive finite double, the nearest to it among these. -/
def shortest (bits : Nat) : Decimal :=
  let k := magnitude (Double.units bits) Double.unitsPerOne
  ((List.range 17).findSome? fun n => neighbour? bits (k - (n + 1 : Nat))).getD (exact bits)

/-! ## Writing -/

/-- Moves trailing zeros of the digits, at most `n` of them, into the exponent. -/
def trimZeros : Nat → Decimal → Decimal
  | 0, d => d
  | n + 1, d =>
    if d.digits % 10 = 0 && d.digits ≠ 0 then trimZeros n ⟨d.digits / 10, d.exponent + 1⟩ else d

/-- The decimal written out with a point where one is needed and without an exponent. -/
def positional (d : Decimal) : String :=
  let ds := Nat.toDigits 10 d.digits
  match d.exponent with
  | .ofNat e => String.ofList (ds ++ List.replicate e '0')
  | .negSucc e =>
    let places := e + 1
    if places < ds.length then
      String.ofList (ds.take (ds.length - places) ++ '.' :: ds.drop (ds.length - places))
    else
      String.ofList ('0' :: '.' :: (List.replicate (places - ds.length) '0' ++ ds))

/-- The text of a positive finite double: the fewest digits that read back, written out. -/
def textOfBits (bits : Nat) : String :=
  let d := shortest bits
  (trimZeros (digitCount d.digits) d).positional

end Decimal

/-- The text of a number. Zeros are `0` whatever their sign; the three values that no digits stand
for have names. -/
def numberText (x : Float) : String :=
  if x.isNaN then "NaN"
  else
    let bits := Double.magnitudeBits x
    if bits = 0 then "0"
    else
      let sign := if Double.isNegative x then "-" else ""
      if bits = Double.infinityBits then sign ++ "Infinity" else sign ++ Decimal.textOfBits bits

end BranchPaint
