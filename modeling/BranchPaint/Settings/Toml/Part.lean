import BranchPaint.Settings.Tree

/-!
# Parts of a settings file

A file is read into parts that remember how they came to be, because that decides what may still be
added to them. A table with a header of its own is written once; one that only lies on the way to
another may still get its header; one that only lies on the way of a dotted key gets none, but
further dotted keys may go through it.
-/

namespace BranchPaint.Toml

/-- How a table came to be. -/
inductive Form where
  /-- On the way of a header. -/
  | implied
  /-- On the way of a dotted key. -/
  | dotted
  /-- By a header of its own. -/
  | written
deriving Repr, DecidableEq

/-- A part of a file. -/
inductive Part where
  /-- A value, which is complete. -/
  | value (v : SettingTree)
  | table (form : Form) (fields : List (String × Part))
  /-- Tables in a row, under one name. -/
  | tables (earlier : List (List (String × Part))) (last : List (String × Part))

/-- Names and their parts. -/
abbrev Parts := List (String × Part)

namespace Parts

/-- Puts another part under a name that is there. -/
def replace (ps : Parts) (name : String) (p : Part) : Parts :=
  ps.map fun q => if q.1 = name then (name, p) else q

/-- Changes the table that names lead to. Tables that are missing on the way are added, and of
tables in a row the last one counts. -/
def within (change : Parts → Option Parts) : List String → Parts → Option Parts
  | [], ps => change ps
  | name :: names, ps =>
    match ps.lookup name with
    | none => (within change names []).map fun inner => ps ++ [(name, .table .implied inner)]
    | some (.table form inner) =>
      (within change names inner).map fun inner => replace ps name (.table form inner)
    | some (.tables earlier last) =>
      (within change names last).map fun last => replace ps name (.tables earlier last)
    | some (.value _) => none

/-- Opens a table by its header. -/
def openTable (name : String) (ps : Parts) : Option Parts :=
  match ps.lookup name with
  | none => some (ps ++ [(name, .table .written [])])
  | some (.table .implied inner) => some (replace ps name (.table .written inner))
  | some _ => none

/-- Opens one more of the tables in a row. -/
def openNext (name : String) (ps : Parts) : Option Parts :=
  match ps.lookup name with
  | none => some (ps ++ [(name, .tables [] [])])
  | some (.tables earlier last) => some (replace ps name (.tables (earlier ++ [last]) []))
  | some _ => none

/-- Sets a key, which may be dotted. It goes through no table with a header, and ends in none that
only lies on the way of a header. -/
def assign (v : SettingTree) : List String → Parts → Option Parts
  | [], _ => none
  | [name], ps => if (ps.lookup name).isSome then none else some (ps ++ [(name, .value v)])
  | name :: names, ps =>
    match ps.lookup name with
    | none => (assign v names []).map fun inner => ps ++ [(name, .table .dotted inner)]
    | some (.table .dotted inner) =>
      (assign v names inner).map fun inner => replace ps name (.table .dotted inner)
    | some (.table .implied inner) =>
      if names.length = 1 then none
      else (assign v names inner).map fun inner => replace ps name (.table .implied inner)
    | some (.tables earlier last) =>
      if names.length = 1 then none
      else (assign v names last).map fun last => replace ps name (.tables earlier last)
    | some _ => none

end Parts

mutual

/-- What a part says. -/
def Part.tree : Part → SettingTree
  | .value v => v
  | .table _ ps => .table (fieldTrees ps)
  | .tables earlier last => .list (tableTrees earlier ++ [.table (fieldTrees last)])

/-- What parts say under their names. -/
def fieldTrees : List (String × Part) → List (String × SettingTree)
  | [] => []
  | (name, p) :: ps => (name, p.tree) :: fieldTrees ps

/-- What tables in a row say. -/
def tableTrees : List (List (String × Part)) → List SettingTree
  | [] => []
  | ps :: rest => .table (fieldTrees ps) :: tableTrees rest

end

end BranchPaint.Toml
