import BranchPaint.Settings.Scalar

/-!
# Trees of settings

All that the layers of settings say, put together. A layer is laid over what is there already:
tables grow together field by field, and anything else replaces what was in its place. A table
without fields therefore changes nothing, whatever stands where it is laid.
-/

namespace BranchPaint

/-- A tree of settings. -/
inductive SettingTree where
  /-- A place that is there and holds nothing. -/
  | nothing
  | scalar (v : Scalar)
  | list (items : List SettingTree)
  /-- Names and what they hold; the first of a name counts. -/
  | table (fields : List (String × SettingTree))

/-- One step into a tree. -/
inductive Step where
  | name (s : String)
  /-- A place in a list; a negative one counts from the end. -/
  | index (i : Int)
deriving Repr, DecidableEq

/-- What a layer says: the way to a place, and what is laid there. -/
abbrev Layer := List (List Step × SettingTree)

namespace SettingTree

/-! ## Fields and items -/

/-- A table without fields. -/
def empty : SettingTree := .table []

/-- The fields; what is no table has none. -/
def fields : SettingTree → List (String × SettingTree)
  | table fs => fs
  | _ => []

/-- What a field holds. The case of names does not count. -/
def field? (t : SettingTree) (name : String) : Option SettingTree :=
  t.fields.lookup (Scalar.lower name)

/-- Puts something into a field, which makes the tree a table, whatever it was. -/
def put (t : SettingTree) (name : String) (v : SettingTree) : SettingTree :=
  .table ((Scalar.lower name, v) :: t.fields)

/-- The items; what is no list has none. -/
def items : SettingTree → List SettingTree
  | list is => is
  | _ => []

/-- Puts something into a place of a list, which makes the tree a list that is long enough. -/
def putItem (t : SettingTree) (n : Nat) (v : SettingTree) : SettingTree :=
  .list ((t.items ++ List.replicate (n + 1 - t.items.length) nothing).set n v)

/-- The place that an index means in a list of length `n`. -/
def position? (i : Int) (n : Nat) : Option Nat :=
  if 0 ≤ i then some i.toNat else if i.natAbs ≤ n then some (n - i.natAbs) else none

/-! ## Laying over -/

mutual

/-- What is in a place once a tree has been laid over what was there, if anything was. -/
def layOver : SettingTree → Option SettingTree → SettingTree
  | table fs, old => layFields fs (old.getD empty)
  | v, _ => v

/-- What is in a place once fields have been laid over it one by one. -/
def layFields : List (String × SettingTree) → SettingTree → SettingTree
  | [], t => t
  | (name, v) :: fs, t => layFields fs (t.put name (layOver v (t.field? name)))

end

/-- Lays a tree over the place that steps lead to. What stands in the way becomes a table or a
list. -/
def place (v : SettingTree) : List Step → SettingTree → SettingTree
  | [], t => t
  | [.name s], t => t.put s (v.layOver (t.field? s))
  | .name s :: steps, t => t.put s (place v steps ((t.field? s).getD nothing))
  | .index i :: steps, t =>
    match position? i t.items.length with
    | none => t
    | some n => t.putItem n (if steps.isEmpty then v else place v steps (t.items[n]?.getD nothing))

/-- Lays all that a layer says over a tree. -/
def addLayer (t : SettingTree) (layer : Layer) : SettingTree :=
  layer.foldl (fun t (steps, v) => v.place steps t) t

/-! ## Reading -/

/-- What a section holds for a key, which is a field of a table or an item of a list. Anything else
is no section. -/
def slot? (t : SettingTree) (key : String) (n : Nat) : Option (Option SettingTree) :=
  match t with
  | table _ => some (t.field? key)
  | list is => some is[n]?
  | _ => none

/-- The scalar that a tree is. -/
def scalar? : SettingTree → Option Scalar
  | scalar v => some v
  | _ => none

/-- The value of a key: the default if nothing holds one, and nothing if what holds it cannot be
read. -/
def get? {α : Type} (t : SettingTree) (s key : String) (n : Nat) (read : Scalar → Option α)
    (default : α) : Option α :=
  match t.field? s with
  | none => some default
  | some inner =>
    match inner.slot? key n with
    | none => none
    | some none => some default
    | some (some v) => v.scalar?.bind read

end SettingTree

end BranchPaint
