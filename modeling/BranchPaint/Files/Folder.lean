import BranchPaint.Files.Path

/-!
# Folders

A folder with files in it, and what happens when one of them is asked for. Nothing is known of what
lies outside, except that the folders on the way up exist.
-/

namespace BranchPaint

/-- Why a file cannot be read. -/
inductive FileError where
  | missing
  /-- It is a folder. -/
  | folder
  /-- The path goes on behind a file. -/
  | notFolder
  /-- A name, or the path, is longer than names and paths can be. -/
  | tooLong
deriving Repr, DecidableEq

/-- The words for it. -/
def FileError.text : FileError → String
  | missing => "No such file or directory (os error 2)"
  | notFolder => "Not a directory (os error 20)"
  | folder => "Is a directory (os error 21)"
  | tooLong => "File name too long (os error 36)"

/-- Files by the steps that lead to them. -/
structure Folder where
  files : List (List String × String)

namespace Folder

/-- The folder with files at the given paths. -/
def ofList (files : List (String × String)) : Folder :=
  ⟨files.map fun (path, text) => (Path.steps path, text)⟩

/-- Is there a folder at this place? -/
def hasFolder (f : Folder) (place : List String) : Bool :=
  f.files.any fun file => place.isPrefixOf file.1 && place.length < file.1.length

/-- The most bytes that a name can have. -/
def nameLimit : Nat := 255

/-- The most bytes that a path can have. -/
def pathLimit : Nat := 4095

/-- Follows the parts of a path from a folder on. -/
def follow (f : Folder) (here : List String) : List String → Except FileError String
  | [] => .error .folder
  | p :: ps =>
    if Path.isStill p then follow f here ps
    else if p = ".." then
      if here.isEmpty then
        .error (if ps.all fun q => Path.isStill q || q = ".." then .folder else .missing)
      else follow f here.dropLast ps
    else if nameLimit < p.utf8ByteSize then .error .tooLong
    else
      let there := here ++ [p]
      match f.files.lookup there with
      | some text => if ps.isEmpty then .ok text else .error .notFolder
      | none => if f.hasFolder there then follow f there ps else .error .missing

/-- The text of the file at a path. -/
def read (f : Folder) (path : String) : Except FileError String :=
  if path.isEmpty then .error .missing
  else if pathLimit < path.utf8ByteSize then .error .tooLong
  else if Path.isAbsolute path then
    .error (if (Path.steps path).all (· = "..") then .folder else .missing)
  else f.follow [] (Path.parts path)

end Folder

end BranchPaint
