/-!
# Files and paths

A `ReadFault` is the reason why a file cannot be read. A `FileTree` is a file or a directory that is held in
memory, and `Location.read` looks a path up in it the way Unix systems do: name by name, `.` and an empty name
staying in a directory and `..` leaving it, with limits on the length of a name and of a path.
-/

namespace ScssExtend

/-- Why a file cannot be read. -/
inductive ReadFault where
  | notFound
  | permissionDenied
  /-- A name is looked up in something that is not a directory. -/
  | notDirectory
  | isDirectory
  | nameTooLong
  | notText
  | other (reason : String)
  deriving DecidableEq

namespace ReadFault

/-- The fault that the system reports with a code. -/
def ofCode? : Nat → Option ReadFault
  | 2 => some notFound
  | 13 => some permissionDenied
  | 20 => some notDirectory
  | 21 => some isDirectory
  | 36 => some nameTooLong
  | _ => none

/-- The wording of a fault, with the system's code if there is one. -/
def message : ReadFault → String
  | notFound => "No such file or directory (os error 2)"
  | permissionDenied => "Permission denied (os error 13)"
  | notDirectory => "Not a directory (os error 20)"
  | isDirectory => "Is a directory (os error 21)"
  | nameTooLong => "File name too long (os error 36)"
  | notText => "stream did not contain valid UTF-8"
  | other reason => reason

end ReadFault

/-- A file with its text, or a directory with what is in it by name. -/
inductive FileTree where
  | file (text : String)
  | directory (entries : List (String × FileTree))

namespace FileTree

/-- What is in a directory; a file holds nothing. -/
def entries : FileTree → List (String × FileTree)
  | file _ => []
  | directory entries => entries

/-- Puts a file in the place that the names lead to; directories that are missing on the way are made. -/
def addFile (text : String) : List String → FileTree → FileTree
  | [], _ => file text
  | name :: names, t =>
    let inner := addFile text names ((t.entries.lookup name).getD (directory []))
    directory ((name, inner) :: t.entries.filter (·.1 != name))

/-- The greatest number of bytes in a name. -/
def maxNameSize : Nat := 255

/-- The greatest number of bytes in a path. -/
def maxPathSize : Nat := 4095

/-- The parts of a text between slashes. -/
def pathParts : List Char → List (List Char)
  | [] => [[]]
  | c :: cs =>
    if c = '/' then [] :: pathParts cs
    else
      match pathParts cs with
      | [] => [[c]]
      | part :: parts => (c :: part) :: parts

/-- The names of a path. An empty first name stands for the root. -/
def pathNames (path : String) : List String :=
  (pathParts path.toList).map String.ofList

/-- A place in a tree: what is there, and the directories around it, innermost first. -/
structure Location where
  here : FileTree
  around : List FileTree

namespace Location

/-- The root of the tree. -/
def root (l : Location) : Location :=
  ⟨l.around.getLast?.getD l.here, []⟩

/-- The directory around a place; the root is its own. -/
def parent (l : Location) : Location :=
  match l.around with
  | [] => l
  | outer :: around => ⟨outer, around⟩

/-- The place that a name means in a directory. -/
def step (l : Location) (name : String) : Except ReadFault Location :=
  match l.here with
  | file _ => .error .notDirectory
  | directory entries =>
    if name = "" ∨ name = "." then .ok l
    else if name = ".." then .ok l.parent
    else if maxNameSize < name.utf8ByteSize then .error .nameTooLong
    else match entries.lookup name with
      | none => .error .notFound
      | some t => .ok ⟨t, l.here :: l.around⟩

/-- The place that a path leads to. -/
def find (l : Location) (path : String) : Except ReadFault Location :=
  if path = "" then .error .notFound
  else if maxPathSize < path.utf8ByteSize then .error .nameTooLong
  else
    let names := pathNames path
    names.foldlM step (if names.head? = some "" then l.root else l)

/-- The text of the file that a path leads to. -/
def read (l : Location) (path : String) : Except ReadFault String := do
  match (← l.find path).here with
  | file text => return text
  | directory _ => throw .isDirectory

end Location

end FileTree

end ScssExtend
