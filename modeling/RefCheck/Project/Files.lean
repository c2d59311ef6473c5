import RefCheck.Project.Path

/-!
# Files

What a check needs of a file system, and a file system that is known in full. In it, paths are
followed part by part from the working directory; nothing is known of what lies outside.
-/

namespace RefCheck

/-- Why a file cannot be read. -/
inductive FileError
  | notFound | notDirectory | isDirectory | notText
deriving DecidableEq, Repr

def FileError.message : FileError → String
  | notFound => "No such file or directory (os error 2)"
  | notDirectory => "Not a directory (os error 20)"
  | isDirectory => "Is a directory (os error 21)"
  | notText => "stream did not contain valid UTF-8"

/-- How files are read and looked at. -/
structure FileAccess (m : Type → Type) where
  read : String → m (Except FileError String)
  isDirectory : String → m Bool
  isFile : String → m Bool

/-- All files below a directory, by the names on the way to them, and directories that may hold no
file. A file without a text is not valid UTF-8. The directory itself may have an address, by which
it is known from outside. -/
structure FileTree where
  address : Option String
  files : List (List String × Option String)
  directories : List (List String)
deriving DecidableEq, Repr

namespace FileTree

/-- Where a path leads. -/
inductive Spot
  | directory (names : List String)
  | file (text : Option String)
  | outside
deriving DecidableEq, Repr

def hasDirectory (t : FileTree) (names : List String) : Bool :=
  names = [] || t.directories.any names.isPrefixOf ||
    t.files.any fun (file, _) => names.length < file.length && names.isPrefixOf file

/-- Follows one part of a path. -/
def step (t : FileTree) (spot : Spot) (part : String) : Except FileError Spot :=
  match spot with
  | .file _ => .error .notDirectory
  | .outside => if Path.isIdle part || part = ".." then .ok .outside else .error .notFound
  | .directory names =>
    if Path.isIdle part then .ok spot
    else if part = ".." then .ok (if names = [] then .outside else .directory names.dropLast)
    else
      let next := names ++ [part]
      match t.files.lookup next with
      | some text => .ok (.file text)
      | none => if t.hasDirectory next then .ok (.directory next) else .error .notFound

/-- A path from the tree's own directory, if it leads through its address. -/
def fromAddress? (t : FileTree) (path : String) : Option String :=
  match t.address with
  | none => none
  | some address =>
    match address.toList.isPrefixOf? path.toList with
    | some [] => some "."
    | some ('/' :: rest) => some (String.ofList ('.' :: '/' :: rest))
    | _ => none

/-- Where a path leads from the tree's own directory. The empty path leads nowhere. -/
def find (t : FileTree) (path : String) : Except FileError Spot :=
  if path = "" then .error .notFound
  else
    match t.fromAddress? path with
    | some inner => (Path.parts inner).foldlM t.step (.directory [])
    | none =>
      (Path.parts path).foldlM t.step (if Path.isAbsolute path then .outside else .directory [])

def read (t : FileTree) (path : String) : Except FileError String :=
  match t.find path with
  | .error e => .error e
  | .ok (.file (some text)) => .ok text
  | .ok (.file none) => .error .notText
  | .ok _ => .error .isDirectory

def isDirectory (t : FileTree) (path : String) : Bool :=
  match t.find path with
  | .ok (.directory _) | .ok .outside => true
  | _ => false

def isFile (t : FileTree) (path : String) : Bool :=
  match t.find path with
  | .ok (.file _) => true
  | _ => false

/-- A tree never changes, so it is read without effects. -/
def access (t : FileTree) : FileAccess Id := ⟨t.read, t.isDirectory, t.isFile⟩

end FileTree

end RefCheck
