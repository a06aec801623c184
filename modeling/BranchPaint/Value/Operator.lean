import BranchPaint.Script.Operator
import BranchPaint.Text.Index
import BranchPaint.Value.Basic

/-!
# Operators on values

Arithmetic goes through numbers, except that a sum with a text on either side joins texts. Texts are
ordered by their characters and all else by number, where no number is ordered with nothing. Strict
equality asks for the same type; loose equality converts first.
-/

namespace BranchPaint.Value

/-! ## Order and equality -/

/-- How two values compare, unless one side is no number. -/
def order (l r : Value) : Option Ordering :=
  match l.primitive, r.primitive with
  | .str a, .str b => some (if a < b then .lt else if a = b then .eq else .gt)
  | a, b =>
    let x := a.toNumber
    let y := b.toNumber
    if x < y then some .lt else if y < x then some .gt else if x == y then some .eq else none

mutual

/-- Equality without conversion. Numbers compare as numbers, so no number differs from itself and
the two zeros are equal; lists compare element by element. -/
def strictEquals : Value → Value → Bool
  | .undefined, .undefined => true
  | .null, .null => true
  | .bool a, .bool b => a == b
  | .num a, .num b => a == b
  | .str a, .str b => a == b
  | .list as, .list bs => strictEqualsAll as bs
  | _, _ => false

/-- Equality of lists, element by element. -/
def strictEqualsAll : List Value → List Value → Bool
  | [], [] => true
  | a :: as, b :: bs => strictEquals a b && strictEqualsAll as bs
  | _, _ => false

end

/-- A truth value as a number; any other value as it is. -/
def unBool : Value → Value
  | .bool b => .num (Value.bool b).toNumber
  | v => v

/-- Loose equality of two values that are neither nothing nor truth values: a list beside anything
else takes part as its text, and a text beside a number as a number. -/
def looseEqualsPresent (l r : Value) : Bool :=
  match l, r with
  | .list as, .list bs => strictEquals (.list as) (.list bs)
  | l, r =>
    match l.primitive, r.primitive with
    | .num a, .str b => a == (Value.str b).toNumber
    | .str a, .num b => (Value.str a).toNumber == b
    | a, b => strictEquals a b

/-- Equality after conversion. The two values that stand for nothing equal each other and nothing
else, and truth values count as numbers. -/
def looseEquals (l r : Value) : Bool :=
  match l.isNothing, r.isNothing with
  | true, true => true
  | true, false => false
  | false, true => false
  | false, false => looseEqualsPresent l.unBool r.unBool

/-! ## Binary and unary operators -/

/-- The sum: of texts if one side is a text or a list, else of numbers. -/
def add (l r : Value) : Value :=
  match l.primitive, r.primitive with
  | .str a, b => .str (a ++ b.display)
  | a, .str b => .str (a.display ++ b)
  | a, b => .num (a.toNumber + b.toNumber)

/-- A binary operator applied. -/
def binary (op : BinaryOp) (l r : Value) : Value :=
  match op with
  | .add => l.add r
  | .sub => .num (l.toNumber - r.toNumber)
  | .mul => .num (l.toNumber * r.toNumber)
  | .div => .num (l.toNumber / r.toNumber)
  | .rem => .num (Double.remainder l.toNumber r.toNumber)
  | .lt => .bool (l.order r == some .lt)
  | .gt => .bool (l.order r == some .gt)
  | .le => .bool (l.order r == some .lt || l.order r == some .eq)
  | .ge => .bool (l.order r == some .gt || l.order r == some .eq)
  | .strictEq => .bool (strictEquals l r)
  | .strictNe => .bool (!strictEquals l r)
  | .eq => .bool (looseEquals l r)
  | .ne => .bool (!looseEquals l r)

/-- A unary operator applied. -/
def unary (op : UnaryOp) (v : Value) : Value :=
  match op with
  | .not => .bool (!v.truthy)
  | .neg => .num (-v.toNumber)
  | .plus => .num v.toNumber
  | .bitNot => .num (Double.complement32 v.toNumber)
  | .typeOf => .str v.typeName

/-! ## Members -/

/-- The index that a key names: a whole number that is not negative, or a canonical index text. -/
def index? : Value → Option Nat
  | .num x =>
    let bits := Double.magnitudeBits x
    if x.isFinite && 0 ≤ x && Double.isWhole bits then some (Double.wholePart bits) else none
  | .str s => canonicalIndex? s
  | _ => none

/-- The member of a list: its length, or an element. -/
def listMember (items : List Value) (key : Value) : Value :=
  match key with
  | .str "length" => .num (Float.ofNat items.length)
  | key => (key.index?.bind fun i => items[i]?).getD .undefined

/-- The member of a text: its length in characters, or one of them. -/
def textMember (text : String) (key : Value) : Value :=
  match key with
  | .str "length" => .num (Float.ofNat text.length)
  | key =>
    ((key.index?.bind fun i => text.toList[i]?).map fun c => Value.str c.toString).getD .undefined

/-- The member of a value; the two values that stand for nothing have none to ask for. -/
def member? (object key : Value) : Option Value :=
  match object with
  | .undefined | .null => none
  | .list items => some (listMember items key)
  | .str s => some (textMember s key)
  | .bool _ | .num _ => some .undefined

end BranchPaint.Value
