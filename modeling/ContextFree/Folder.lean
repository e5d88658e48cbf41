import ContextFree.Grammar.Reading

/-!
Folders as values, so that what a program reads can be given to it as data. A folder is the list of the files below it,
and `find?` says which of them a path names.

A path is followed step by step. An empty step and `.` stay where they are, `..` goes up, and any other step goes to
the file or folder of that name. Nothing lies behind a file, and an absolute path or one that leaves the folder names
no file of it.
-/

namespace ContextFree

/-- the names from a folder down to a file or folder in it -/
abbrev Place := List (List Char)

structure Folder where
  files : List (Place × ByteArray) := []

namespace Folder

/-- the steps of a path -/
def steps (path : String) : List (List Char) := Reading.split '/' path.toList

/-- The step stays where it is. -/
def stays (step : List Char) : Bool := step = [] ∨ step = ['.']

/-- the folder with files of these names -/
def ofList (files : List (String × ByteArray)) : Folder :=
  ⟨files.map fun (name, bytes) => ((steps name).filter (!stays ·), bytes)⟩

/-- Some file lies below the place. -/
def isFolder (f : Folder) (place : Place) : Bool := f.files.any fun (file, _) => place.isPrefixOf file && place != file

/-- the file that steps lead to from a place -/
def follow (f : Folder) (place : Place) : List (List Char) → Option ByteArray
  | [] => none
  | step :: rest =>
    if stays step then f.follow place rest
    else if step = ['.', '.'] then
      if place.isEmpty then none else f.follow place.dropLast rest
    else
      let next := place ++ [step]
      if f.isFolder next then f.follow next rest
      else if rest.isEmpty then f.files.lookup next
      else none

def find? (f : Folder) (path : String) : Option ByteArray :=
  if path.toList.head? = some '/' then none else f.follow [] (steps path)

end Folder

end ContextFree
