import BranchPaint.Number.Decimal
import BranchPaint.Settings.Toml.Text

/-!
# Numbers in a settings file

Integers have 64 bits and are written in base ten with an optional sign, or in base sixteen, eight
or two with the base in front. Other numbers have a fraction or an exponent, or are named. Single
underscores may stand between digits.
-/

namespace BranchPaint.Toml

/-! ## Integers -/

/-- Digits without the single underscores between them; a digit stands at each end. -/
def ungroup (afterDigit : Bool) : List Char → Option (List Char)
  | [] => if afterDigit then some [] else none
  | c :: r =>
    if c = '_' then (if afterDigit then ungroup false r else none)
    else (ungroup true r).map (c :: ·)

/-- The number that grouped decimal digits are, without needless zeros. -/
def decimal? (cs : List Char) : Option Nat :=
  (ungroup false cs).bind fun ds =>
    if 1 < ds.length && ds.head? = some '0' then none else number? 10 ds

/-- The number that grouped digits in another base are. -/
def based? (base : Nat) (cs : List Char) : Option Nat := (ungroup false cs).bind (number? base)

/-- The integer of 64 bits that a word is: decimal with an optional sign, or with its base in
front. -/
def integer? (word : List Char) : Option Int :=
  let upTo (limit : Nat) (n? : Option Nat) : Option Nat := n?.filter fun n => n ≤ limit
  let largest := Nat.pow 2 63 - 1
  match word with
  | '0' :: 'x' :: ds => (upTo largest (based? 16 ds)).map fun n => (n : Int)
  | '0' :: 'o' :: ds => (upTo largest (based? 8 ds)).map fun n => (n : Int)
  | '0' :: 'b' :: ds => (upTo largest (based? 2 ds)).map fun n => (n : Int)
  | '-' :: ds => (upTo (largest + 1) (decimal? ds)).map fun n => -(n : Int)
  | '+' :: ds => (upTo largest (decimal? ds)).map fun n => (n : Int)
  | ds => (upTo largest (decimal? ds)).map fun n => (n : Int)

/-! ## Other numbers -/

/-- A digit or an underscore. -/
def isGrouping (c : Char) : Bool := c.isDigit || c = '_'

/-- Are these grouped decimal digits? -/
def areDigits (cs : List Char) : Bool := cs.all isGrouping && (ungroup false cs).isSome

/-- A number without its sign. -/
def unsigned : List Char → List Char
  | '+' :: r => r
  | '-' :: r => r
  | cs => cs

/-- Is this an exponent? -/
def isExponent : List Char → Bool
  | c :: r => (c = 'e' || c = 'E') && areDigits (unsigned r)
  | [] => false

/-- Is this a fraction, perhaps with an exponent? -/
def isFraction : List Char → Bool
  | '.' :: r =>
    areDigits (r.takeWhile isGrouping)
      && ((r.dropWhile isGrouping).isEmpty || isExponent (r.dropWhile isGrouping))
  | _ => false

/-- The number that a word is, if it is no integer. One that is too large is refused, unless it is
negative. -/
def float? (word : List Char) : Option Float :=
  let body := unsigned word
  if body = "inf".toList || body = "nan".toList then Decimal.readNamedFloat? (String.ofList word)
  else
    let tail := body.dropWhile isGrouping
    if (decimal? (body.takeWhile isGrouping)).isSome && (isFraction tail || isExponent tail) then
      (Decimal.readFloat? (String.ofList (word.filter (· ≠ '_')))).filter fun x =>
        !(x.isInf && 0 < x)
    else none

end BranchPaint.Toml
