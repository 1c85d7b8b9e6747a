namespace Pinpoint

/-- What reading a file has come to. -/
inductive FileContents where
  | bytes (contents : ByteArray)
  | missing
  /-- Any other fault, as the operating system words it. -/
  | fault (reason : String)

/-- Why a path leads to no file. -/
inductive PathFault where
  | missing
  /-- The path goes on below something that is a file. -/
  | belowFile
  /-- The path ends at a directory. -/
  | atDirectory
  /-- A name, or the whole path, has more bytes than a disk takes. -/
  | tooLong
  /-- The path has a zero character, which would end it early. -/
  | zeroCharacter
deriving DecidableEq

/-- The report of a fault. -/
def PathFault.contents : PathFault → FileContents
  | .missing => .missing
  | .belowFile => .fault "Not a directory (os error 20)"
  | .atDirectory => .fault "Is a directory (os error 21)"
  | .tooLong => .fault "File name too long (os error 36)"
  | .zeroCharacter => .fault "file name contained an unexpected NUL byte"

/-- A file, or a directory with what it holds by name. The first entry of a name counts. Such a tree stands for a
disk, so that an invocation of the program is a function of its arguments and of the tree it finds. -/
inductive FileTree where
  | file (contents : ByteArray)
  | directory (entries : List (String × FileTree))

namespace FileTree

/-- The greatest number of bytes in a name. -/
def nameLimit : Nat := 255

/-- The greatest number of bytes in a path. -/
def pathLimit : Nat := 4095

/-- A place in a tree, with the directories around it, innermost first. -/
structure Place where
  here : FileTree
  around : List FileTree

/-- The place that `name` leads to. An empty name and `.` stay, `..` goes up, and the top is its own parent. Only a
directory can be left, even to go nowhere. -/
def Place.step (place : Place) (name : String) : Except PathFault Place :=
  match place.here with
  | .file _ => .error .belowFile
  | .directory entries =>
    if name = "" ∨ name = "." then .ok place
    else if name = ".." then
      match place.around with
      | [] => .ok place
      | parent :: around => .ok ⟨parent, around⟩
    else if nameLimit < name.utf8ByteSize then .error .tooLong
    else
      match entries.lookup name with
      | none => .error .missing
      | some entry => .ok ⟨entry, place.here :: place.around⟩

/-- The place that names lead to, one after the other. -/
def Place.walk (place : Place) : List String → Except PathFault Place
  | [] => .ok place
  | name :: names =>
    match place.step name with
    | .error fault => .error fault
    | .ok next => next.walk names

/-- The names to walk from the top for `path`. It starts from the directory `current`, or from the top if it begins with
a slash. -/
def names (current : List String) (path : String) : List String :=
  if path.startsWith "/" then path.splitOn "/" else current ++ path.splitOn "/"

/-- The bytes of the file at `path`, for a program that runs in the directory `current` of the tree. -/
def find (tree : FileTree) (current : List String) (path : String) : Except PathFault ByteArray :=
  if path.contains '\x00' then .error .zeroCharacter
  else if path = "" then .error .missing
  else if pathLimit < path.utf8ByteSize then .error .tooLong
  else
    match (Place.mk tree []).walk (names current path) with
    | .error fault => .error fault
    | .ok ⟨.file contents, _⟩ => .ok contents
    | .ok ⟨.directory _, _⟩ => .error .atDirectory

/-- What reading `path` comes to, for a program that runs in the directory `current` of the tree. -/
def read (tree : FileTree) (current : List String) (path : String) : FileContents :=
  match tree.find current path with
  | .error fault => fault.contents
  | .ok contents => .bytes contents

end FileTree

end Pinpoint
