import BranchPaint.Number.Decimal
import BranchPaint.Text.Index

/-!
# Scalars

What a setting can be written as, and how each form counts where a width, a flag or a text is
wanted. The conversions are generous: a flag may be a number or one of a few words, a width may be a
flag, and a text may be anything.
-/

namespace BranchPaint

/-- A single written value. -/
inductive Scalar where
  | boolean (b : Bool)
  | integer (n : Int)
  | decimal (x : Float)
  | text (s : String)

namespace Scalar

/-- A character as a small letter, as far as it can become one of ASCII: the capitals of ASCII do,
and so does the sign for kelvin, which is a capital K. -/
def lowerChar (c : Char) : Char := if c = '\u212a' then 'k' else c.toLower

/-- A text in small letters. -/
def lower (s : String) : String := String.ofList (s.toList.map lowerChar)

/-- Words for yes. -/
def yesWords : List String := ["true", "on", "yes"]

/-- Words for no. -/
def noWords : List String := ["false", "off", "no"]

/-- The integer of 64 bits that a text is, with an optional sign. -/
def integerOfText? (s : String) : Option Int :=
  match s.toList with
  | '-' :: ds => (indexOfDigits? ds).bind fun n =>
    if n ≤ Nat.pow 2 63 then some (-(n : Int)) else none
  | '+' :: ds => (indexOfDigits? ds).bind fun n => if n < Nat.pow 2 63 then some (n : Int) else none
  | ds => (indexOfDigits? ds).bind fun n => if n < Nat.pow 2 63 then some (n : Int) else none

/-- The scalar that the text of a variable is: a truth value in any case, else an integer, else a
number, else itself. -/
def ofVariable (s : String) : Scalar :=
  if lower s = "true" then boolean true
  else if lower s = "false" then boolean false
  else
    match integerOfText? s with
    | some n => integer n
    | none =>
      match Decimal.readNamedFloat? s with
      | some x => decimal x
      | none => text s

/-- A number rounded to the nearest index, a half going up; negative numbers and no number count as
zero, and large ones as the largest index. -/
def indexOfFloat (x : Float) : Nat :=
  if x.isNaN || Double.isNegative x then 0
  else if x.isInf then indexLimit - 1
  else
    min ((2 * Double.units (Double.magnitudeBits x) + Double.unitsPerOne) /
      (2 * Double.unitsPerOne)) (indexLimit - 1)

/-- The scalar as a width. -/
def width? : Scalar → Option Nat
  | boolean b => some (if b then 1 else 0)
  | integer n => if 0 ≤ n then some n.toNat else none
  | decimal x => some (indexOfFloat x)
  | text s =>
    if yesWords.contains (lower s) then some 1
    else if noWords.contains (lower s) then some 0
    else indexOfText? s

/-- The scalar as a flag. -/
def flag? : Scalar → Option Bool
  | boolean b => some b
  | integer n => some (n ≠ 0)
  | decimal x => some (x != 0)
  | text s =>
    if s = "1" || yesWords.contains (lower s) then some true
    else if s = "0" || noWords.contains (lower s) then some false
    else none

/-- The text of a number, where infinity has its short name and a negative zero its sign. -/
def floatText (x : Float) : String :=
  if x.isInf then (if x < 0 then "-inf" else "inf")
  else if x == 0 && Double.isNegative x then "-0"
  else numberText x

/-- The scalar as a text. -/
def asText : Scalar → String
  | boolean b => if b then "true" else "false"
  | integer n => toString n
  | decimal x => floatText x
  | text s => s

/-- The scalar as a text, which each of them can be. -/
def text? (v : Scalar) : Option String := some v.asText

end Scalar

end BranchPaint
