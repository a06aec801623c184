/-!
# Texts that are indices

An index text is a run of decimal digits, with an optional plus sign in front, that names a number
of 64 bits. Leading zeros are allowed, so an index has many texts, and one canonical text among
them.
-/

namespace BranchPaint

/-- Indices are numbers of 64 bits. -/
def indexLimit : Nat := Nat.pow 2 64

/-- The number that a run of digits names, if it is an index. -/
def indexOfDigits? (ds : List Char) : Option Nat :=
  if ds.isEmpty || !ds.all Char.isDigit then none
  else
    let n := ds.foldl (fun n c => 10 * n + (c.toNat - '0'.toNat)) 0
    if n < indexLimit then some n else none

/-- The index that a text names. -/
def indexOfText? (text : String) : Option Nat :=
  match text.toList with
  | '+' :: ds => indexOfDigits? ds
  | ds => indexOfDigits? ds

/-- The index that a text names canonically: digits without a sign or needless zeros. -/
def canonicalIndex? (text : String) : Option Nat :=
  (indexOfText? text).filter fun n => String.ofList (Nat.toDigits 10 n) = text

end BranchPaint
