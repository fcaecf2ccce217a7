import FrameLang.Path

/-!
# Files in a directory

The files around a working directory, as far as a program can see them: a file has a place, which is
the list of the names that lead to it, and contents. There are exactly the directories that lead to
some file, and those above the working directory. Names in a path are separated by slashes; empty
names and `.` stay where they are, and `..` goes up. The lengths of names and paths are limited.

## Main definitions

* `Disk` — the files.
* `Disk.read`, `Disk.write` — the contents of a file, and a disk with new contents in a file.
-/

namespace FrameLang

/-- Where a file is: the names that lead to it from the working directory, where all `..` stand in
front. -/
abbrev Place := List Text

/-- The greatest length of a name. -/
def nameLimit : Nat := 255

/-- The greatest length of a path. -/
def pathLimit : Nat := 4095

/-- The name that leads up. -/
def upward : Text := ['.', '.']

/-- Splits a text at slashes. -/
def splitSlashes : Text → List Text
  | [] => [[]]
  | c :: rest =>
    if c = '/' then [] :: splitSlashes rest
    else
      match splitSlashes rest with
      | [] => [[c]]
      | name :: names => (c :: name) :: names

/-- Files with their places and contents. -/
structure Disk where
  files : List (Place × Text)
deriving DecidableEq

namespace Disk

/-- The contents of the file at a place. -/
def file? (disk : Disk) (place : Place) : Option Text :=
  disk.files.lookup place

/-- Whether a place is a directory: the working directory or one above it, or on the way to some
file. -/
def isDirectory (disk : Disk) (place : Place) : Bool :=
  place.all (· = upward) || disk.files.any fun (p, _) => place.isPrefixOf p && place ≠ p

/-- The directory above the directory at a place. -/
def parent (place : Place) : Place :=
  if place.all (· = upward) then place ++ [upward] else place.dropLast

/-- The place that the names lead to from the directory `base`. Every name but the last has to lead
to a directory. The last one names a file, so it must not, and it must not be too long. -/
def walk (disk : Disk) (base : Place) : List Text → Option Place
  | [] => none
  | [name] =>
    if name ∈ [[], ['.'], upward] ∨ disk.isDirectory (base ++ [name]) then none
    else if name.length ≤ nameLimit then some (base ++ [name])
    else none
  | name :: names =>
    if name = [] ∨ name = ['.'] then disk.walk base names
    else if name = upward then disk.walk (parent base) names
    else if disk.isDirectory (base ++ [name]) then disk.walk (base ++ [name]) names
    else none

/-- The place of the file that a path names, whether the file exists or not. -/
def place? (disk : Disk) (path : Text) : Option Place :=
  if path.length ≤ pathLimit then disk.walk [] (splitSlashes path) else none

/-- The contents of the file that a path names. -/
def read (disk : Disk) (path : Text) : Option Text :=
  (disk.place? path).bind disk.file?

/-- The files with new contents at a place, where a file is added if there is none. -/
def replace (place : Place) (contents : Text) : List (Place × Text) → List (Place × Text)
  | [] => [(place, contents)]
  | (p, old) :: rest =>
    if p = place then (p, contents) :: rest else (p, old) :: replace place contents rest

/-- The disk with new contents in the file that a path names, if there can be such a file. -/
def write (disk : Disk) (path contents : Text) : Option Disk :=
  (disk.place? path).map fun place => ⟨replace place contents disk.files⟩

/-- The place that a path names if all directories on the way are there. -/
def placeOf (path : Text) : Place :=
  (splitSlashes path).foldl (fun place name =>
    if name = [] ∨ name = ['.'] then place
    else if name = upward then parent place
    else place ++ [name]) []

/-- The disk with the given files, each under its path. Of several files in one place the last
remains. -/
def ofFiles (files : List (Text × Text)) : Disk :=
  ⟨files.foldl (fun files (path, contents) => replace (placeOf path) contents files) []⟩

/-- The files below the working directory that are new or have other contents than on the disk
`before`, with their paths. -/
def changesSince (before after : Disk) : List (Text × Text) :=
  (after.files.filter fun (place, contents) =>
      place.head? ≠ some upward ∧ before.file? place ≠ some contents).map
    fun (place, contents) => (List.intercalate ['/'] place, contents)

end Disk

end FrameLang
