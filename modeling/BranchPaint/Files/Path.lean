import BranchPaint.Text.Split

/-!
# Paths

Names of files, with slashes between the folders on the way. Empty parts and single dots stay where
they are, two dots go one folder up.
-/

namespace BranchPaint.Path

/-- The parts between slashes. -/
def parts (path : String) : List String := (splitChars '/' path.toList).map String.ofList

/-- Does a part stay where it is? -/
def isStill (part : String) : Bool := part = "" || part = "."

/-- The parts that lead somewhere. -/
def steps (path : String) : List String := (parts path).filter fun p => !isStill p

/-- Does the path start at the root of all folders? -/
def isAbsolute (path : String) : Bool := path.toList.head? = some '/'

/-- The name at the end of a path, unless that goes up. -/
def baseName? (path : String) : Option String :=
  (steps path).getLast?.filter fun name => name ≠ ".."

/-- The ending of a name: what follows its last dot, if something stands before the dot. -/
def ending? (name : String) : Option String :=
  match name.toList.reverse.dropWhile (· ≠ '.') with
  | _ :: _ :: _ => some (String.ofList (name.toList.reverse.takeWhile (· ≠ '.')).reverse)
  | _ => none

/-- The path whose last name has more text behind it. -/
def extend? (path more : String) : Option String :=
  (baseName? path).map fun name =>
    (if isAbsolute path then "/" else "") ++
      "/".intercalate ((steps path).dropLast ++ [name ++ more])

end BranchPaint.Path
