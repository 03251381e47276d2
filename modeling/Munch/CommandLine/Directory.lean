/-!
# Directories

A directory holds files and, for the files that are not directly in it, further
directories.  A path leads from it to a file by way of directories that exist.

Main results:

- Theorem {lit}`Directory.file?_write`: a file that has been written is read back.
- Theorem {lit}`Directory.file?_write_of_ne`: writing a file keeps the others.
-/

namespace Munch

/-- The names on the way from a directory to something in it, the last one first. -/
abbrev Place := List String

/-- A directory with the content of all files in it by their places. -/
structure Directory where
  files : List (Place × ByteArray)

namespace Directory

/-- A directory without files. -/
def empty : Directory := ⟨[]⟩

/-- The content of the file at a place. -/
def file? (d : Directory) (place : Place) : Option ByteArray :=
  (d.files.find? fun entry => entry.1 = place).map Prod.snd

/-- Whether there is a directory at a place. -/
def isFolder (d : Directory) (place : Place) : Bool :=
  place.isEmpty || d.files.any fun entry => place.isSuffixOf (entry.1.drop 1)

/-- Puts a file to a place, instead of one that was there. -/
def write (d : Directory) (place : Place) (content : ByteArray) : Directory :=
  ⟨(place, content) :: d.files.filter fun entry => entry.1 ≠ place⟩

/-- Goes on from a place by some names, all of which must lead to directories.  An
empty name or a dot leads nowhere else, and two dots lead back. -/
def enter (d : Directory) : Place → List String → Option Place
  | place, [] => some place
  | place, name :: rest =>
    if name = "" ∨ name = "." then enter d place rest
    else if name = ".." then
      match place with
      | [] => none
      | _ :: outer => enter d outer rest
    else if d.isFolder (name :: place) then enter d (name :: place) rest
    else none

/-- The last name of a path. -/
def lastName (path : String) : String := (path.splitOn "/").getLast?.getD ""

/-- The place that a path leads to, if it can hold a file. -/
def locate (d : Directory) (path : String) : Option Place :=
  let names := path.splitOn "/"
  let name := lastName path
  if path.startsWith "/" ∨ name = "" ∨ name = "." ∨ name = ".." then none
  else (d.enter [] names.dropLast).map (name :: ·)

/-- The content of the file that a path leads to. -/
def read? (d : Directory) (path : String) : Option ByteArray :=
  (d.locate path).bind d.file?

/-- Writes the file that a path leads to, unless a directory is there. -/
def write? (d : Directory) (path : String) (content : ByteArray) : Option Directory :=
  match d.locate path with
  | none => none
  | some place => if d.isFolder place then none else some (d.write place content)

/-- The directory that holds some files and the directories that they need. -/
def ofFiles (files : List (String × ByteArray)) : Directory :=
  files.foldl (fun d file =>
    d.write ((file.1.splitOn "/").filter fun name => name ≠ "" ∧ name ≠ ".").reverse file.2)
    empty

/-- A file that has been written is read back. -/
@[simp]
theorem file?_write (d : Directory) (place : Place) (content : ByteArray) :
    (d.write place content).file? place = some content := by
  simp [file?, write]

/-- Writing a file keeps the others. -/
theorem file?_write_of_ne (d : Directory) {place other : Place} (content : ByteArray)
    (h : place ≠ other) : (d.write place content).file? other = d.file? other := by
  have hkept : ∀ files : List (Place × ByteArray),
      (files.filter fun entry => entry.1 ≠ place).find? (fun entry => entry.1 = other) =
        files.find? fun entry => entry.1 = other := by
    intro files
    induction files with
    | nil => rfl
    | cons entry files ih =>
      by_cases hplace : entry.1 = place
      · have hother : entry.1 ≠ other := hplace ▸ h
        rw [List.filter_cons_of_neg (by simp [hplace]), ih,
          List.find?_cons_of_neg (by simp [hother])]
      · rw [List.filter_cons_of_pos (by simp [hplace]), List.find?_cons, List.find?_cons, ih]
  rw [file?, write, List.find?_cons_of_neg (by simpa using h), hkept, file?]

end Directory
end Munch
