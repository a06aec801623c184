import BranchPaint.Number.Decimal
import BranchPaint.Text.Blank

/-!
# Values

The values that conditions are computed with, and how each counts as a truth value, a number and a
text. Lists are compared and converted by their elements; they have no identity.
-/

namespace BranchPaint

/-- A value. -/
inductive Value where
  | undefined
  | null
  | bool (v : Bool)
  | num (v : Float)
  | str (v : String)
  | list (items : List Value)
deriving Inhabited

/-- The number that a text stands for: zero if it is blank, the infinities by name, a decimal with
an optional sign, and no number otherwise. -/
def numberOfText (text : String) : Float :=
  let t := trimWhiteSpace text
  if t.isEmpty then 0
  else if t = "Infinity" || t = "+Infinity" then 1 / 0
  else if t = "-Infinity" then -1 / 0
  else if t.toList.any fun c => c.isAlpha && c ≠ 'e' && c ≠ 'E' then 0 / 0
  else (Decimal.readFloat? t).getD (0 / 0)

namespace Value

/-- Does the value count as true? -/
def truthy : Value → Bool
  | undefined | null => false
  | bool b => b
  | num x => x != 0 && !x.isNaN
  | str s => !s.isEmpty
  | list _ => true

mutual

/-- The value as text. -/
def display : Value → String
  | .undefined => "undefined"
  | .null => "null"
  | .bool b => if b then "true" else "false"
  | .num x => numberText x
  | .str s => s
  | .list items => ",".intercalate (displayItems items)

/-- The elements of a list as text; the two values that stand for nothing leave a gap. -/
def displayItems : List Value → List String
  | [] => []
  | .undefined :: vs => "" :: displayItems vs
  | .null :: vs => "" :: displayItems vs
  | v :: vs => v.display :: displayItems vs

end

/-- The value as a number. A list counts as its only element's text, an empty one as zero, and a
longer one as no number. -/
def toNumber : Value → Float
  | undefined => 0 / 0
  | null => 0
  | bool b => if b then 1 else 0
  | num x => x
  | str s => numberOfText s
  | list [] => 0
  | list [v] => numberOfText v.display
  | list (_ :: _ :: _) => 0 / 0

/-- The name of the value's type. -/
def typeName : Value → String
  | undefined => "undefined"
  | bool _ => "boolean"
  | num _ => "number"
  | str _ => "string"
  | null | list _ => "object"

/-- The value as an operand: a list takes part as its text. -/
def primitive : Value → Value
  | list items => str (list items).display
  | v => v

/-- Is this one of the two values that stand for nothing? -/
def isNothing : Value → Bool
  | undefined | null => true
  | _ => false

end Value

end BranchPaint
