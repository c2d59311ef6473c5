/-!
# Paths

Names of files with slashes between them. A path that starts with a slash is absolute. Joining does
not tidy a path up; only the parent of a path leaves out what means nothing at its end.
-/

namespace RefCheck.Path

def isAbsolute (path : String) : Bool := path.toList.head? = some '/'

/-- A path that is meant from a base. -/
def join (base path : String) : String :=
  if isAbsolute path || base = "" then path
  else if base.toList.getLast? = some '/' then base ++ path
  else base ++ "/" ++ path

/-- The parts of a path between slashes, one at least. -/
def split : List Char → List (List Char)
  | [] => [[]]
  | c :: rest =>
    if c = '/' then [] :: split rest
    else
      match split rest with
      | first :: more => (c :: first) :: more
      | [] => [[c]]

def parts (path : String) : List String := (split path.toList).map String.ofList

/-- A part that leads nowhere else. -/
def isIdle (part : String) : Bool := part = "" || part = "."

/-- The start of a path that is no part of it: the slash of an absolute path, or the point of a
path that starts with one. -/
def anchor (path : String) : String × String :=
  match path.toList with
  | '/' :: rest => ("/", String.ofList rest)
  | ['.'] => (".", "")
  | '.' :: '/' :: rest => (".", String.ofList ('/' :: rest))
  | cs => ("", String.ofList cs)

/-- The path without its last part and without what leads nowhere before it; empty if there is no
last part. -/
def parent (path : String) : String :=
  let (start, rest) := anchor path
  match (parts rest).reverse.dropWhile isIdle with
  | [] => ""
  | _ :: before => start ++ "/".intercalate (before.dropWhile isIdle).reverse

end RefCheck.Path
