import BranchPaint.Number.Decimal

/-!
# Dates and times in a settings file

A date, a time, or both with an optional offset. They count as texts: the letters between the parts
become capitals, a fraction of a second keeps nine digits and loses the zeros at its end, and no
offset is negative zero.
-/

namespace BranchPaint.Toml

/-- Are these digits of a number between two bounds? -/
def inBounds (low high : Nat) (ds : List Char) : Bool :=
  ds.all Char.isDigit && low ≤ Decimal.ofDigits ds && Decimal.ofDigits ds ≤ high

/-- The number of days in a month. -/
def daysIn (year month : Nat) : Nat :=
  if month = 2 then (if year % 4 = 0 && (year % 100 ≠ 0 || year % 400 = 0) then 29 else 28)
  else if [4, 6, 9, 11].contains month then 30
  else 31

/-- Is this a year, a month and a day? -/
def isDate (year month day : List Char) : Bool :=
  inBounds 0 9999 year && inBounds 1 12 month
    && inBounds 1 (daysIn (Decimal.ofDigits year) (Decimal.ofDigits month)) day

/-- The text of a fraction of a second with these digits. -/
def fractionText (ds : List Char) : List Char :=
  match ((ds.take 9).reverse.dropWhile (· = '0')).reverse with
  | [] => []
  | ds => '.' :: ds

/-- A fraction of a second, if one is there. -/
def fraction (cs : List Char) : List Char × List Char :=
  match cs with
  | '.' :: r =>
    match r.takeWhile Char.isDigit with
    | [] => ([], cs)
    | ds => (fractionText ds, r.dropWhile Char.isDigit)
  | _ => ([], cs)

/-- A time, and what follows. -/
def time? (cs : List Char) : Option (List Char × List Char) :=
  match cs with
  | h :: h' :: ':' :: m :: m' :: ':' :: s :: s' :: r =>
    if inBounds 0 23 [h, h'] && inBounds 0 59 [m, m'] && inBounds 0 60 [s, s'] then
      some (cs.take 8 ++ (fraction r).1, (fraction r).2)
    else none
  | _ => none

/-- The text of an offset that all of a text is. -/
def offset? (cs : List Char) : Option (List Char) :=
  match cs with
  | [] => some []
  | ['Z'] | ['z'] => some ['Z']
  | [sign, h, h', ':', m, m'] =>
    if (sign = '+' || sign = '-') && inBounds 0 23 [h, h'] && inBounds 0 59 [m, m'] then
      some (if [h, h', m, m'].all (· = '0') then "+00:00".toList else cs)
    else none
  | _ => none

/-- The text of the date or time that a word is. -/
def moment? (word : List Char) : Option (List Char) :=
  match word with
  | y :: y' :: y'' :: y''' :: '-' :: m :: m' :: '-' :: d :: d' :: r =>
    if isDate [y, y', y'', y'''] [m, m'] [d, d'] then
      match r with
      | [] => some word
      | c :: r =>
        if c = 'T' || c = 't' || c = ' ' then
          (time? r).bind fun (time, r) =>
            (offset? r).map fun zone => word.take 10 ++ 'T' :: time ++ zone
        else none
    else none
  | _ =>
    match time? word with
    | some (time, []) => some time
    | _ => none

end BranchPaint.Toml
