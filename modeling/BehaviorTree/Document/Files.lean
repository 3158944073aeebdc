import BehaviorTree.Document.Error
import BehaviorTree.Text.Split

/-!
# Files

A file system is a tree of folders and files. A path is a row of names between slashes; it is
followed name by name, from the root if it begins with a slash and else from the working
folder. Only a folder can be gone through, so a slash behind the name of a file is an error.
-/

namespace BehaviorTree

/-- What a file system holds. -/
inductive Stored where
  | file (content : ByteArray)
  | folder (entries : List (String × Stored))

/-- An empty folder stands in where nothing else is stored. -/
instance : Inhabited Stored := ⟨.folder []⟩

/-- A place in a file system: what is there, and the folders around it, the innermost
first. -/
structure Place where
  /-- The file or folder at this place. -/
  here : Stored
  /-- The folders around it, the innermost first. -/
  around : List Stored := []

namespace Place

/-- The greatest number of bytes in a name. -/
def longestName : Nat := 255

/-- The place that a name leads to. An empty name and a dot lead nowhere else, two dots lead to
the enclosing folder, and the root is enclosed by itself. -/
def step (place : Place) (name : String) : Except FileError Place :=
  match place.here with
  | .file _ => .error .notDirectory
  | .folder entries =>
    if name = "" ∨ name = "." then .ok place
    else if name = ".." then
      match place.around with
      | [] => .ok place
      | outer :: rest => .ok ⟨outer, rest⟩
    else if longestName < name.utf8ByteSize then .error .nameTooLong
    else
      match entries.lookup name with
      | some inner => .ok ⟨inner, place.here :: place.around⟩
      | none => .error .notFound

/-- The place that several names lead to, one after the other. -/
def follow : Place → List String → Except FileError Place
  | place, [] => .ok place
  | place, name :: rest =>
    match place.step name with
    | .ok next => next.follow rest
    | .error reason => .error reason

end Place

/-- A file system and the folder that paths without a slash in front begin in. -/
structure Files where
  /-- The topmost folder. -/
  root : Stored
  /-- The working folder. -/
  working : Place := ⟨root, []⟩

namespace Files

/-- The greatest number of bytes in a path. -/
def longestPath : Nat := 4095

/-- The names in a path, empty ones included. -/
def names (path : String) : List String := (Text.splitAt '/' path.toList).map String.ofList

/-- The place where a path begins. -/
def start (files : Files) (path : String) : Place :=
  if path.toList.head? = some '/' then ⟨files.root, []⟩ else files.working

/-- The content of the file that a path leads to. -/
def read (files : Files) (path : String) : Except FileError ByteArray :=
  if path.toList.contains '\x00' then .error .badName
  else if path = "" then .error .notFound
  else if longestPath < path.utf8ByteSize then .error .nameTooLong
  else
    match (files.start path).follow (names path) with
    | .ok ⟨.file content, _⟩ => .ok content
    | .ok ⟨.folder _, _⟩ => .error .isDirectory
    | .error reason => .error reason

/-- A file system whose only file has this content. -/
def single (name : String) (content : ByteArray) : Files :=
  { root := .folder [(name, .file content)] }

end Files

end BehaviorTree
