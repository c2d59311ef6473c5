import RefCheck.Text.Span

/-!
# Lines of a source

A line ends at a line feed, or at a carriage return that no line feed follows. Offsets count bytes
and places within a line count characters; an offset inside a character has no place of its own.
-/

namespace RefCheck.Text

/-- What is left after so many bytes, unless they end inside a character or past the end. -/
def dropBytes : List Char → Nat → Option (List Char)
  | cs, 0 => some cs
  | [], _ + 1 => none
  | c :: cs, n + 1 => if c.utf8Size ≤ n + 1 then dropBytes cs (n + 1 - c.utf8Size) else none

/-- The first so many bytes, unless they end inside a character or past the end. -/
def takeBytes : List Char → Nat → Option (List Char)
  | _, 0 => some []
  | [], _ + 1 => none
  | c :: cs, n + 1 =>
    if c.utf8Size ≤ n + 1 then (takeBytes cs (n + 1 - c.utf8Size)).map (c :: ·) else none

/-- The characters between two byte offsets, if both are boundaries in the right order. -/
def slice (cs : List Char) (start stop : Nat) : Option (List Char) :=
  if start ≤ stop then (dropBytes cs start).bind (takeBytes · (stop - start)) else none

/-- A line and a place in it, both counted from zero. -/
structure Position where
  line : Nat
  character : Nat
deriving DecidableEq, Repr

/-- Where the lines of a source start, in ascending order; the first one starts at zero. -/
structure LineMap where
  starts : List Nat
deriving DecidableEq, Repr

namespace LineMap

def isLineEnd (c : Char) : Bool := c = '\n' || c = '\r'

/-- The offsets right after the ends of lines. -/
def startsAfter : (offset : Nat) → List Char → List Nat
  | _, [] => []
  | offset, c :: rest =>
    let next := offset + c.utf8Size
    if c = '\n' || (c = '\r' && rest.head? ≠ some '\n') then next :: startsAfter next rest
    else startsAfter next rest

def ofSource (source : String) : LineMap := ⟨0 :: startsAfter 0 source.toList⟩

/-- The line of an offset: the last one that does not start after it. -/
def lineOf (m : LineMap) (offset : Nat) : Nat := (m.starts.takeWhile (· ≤ offset)).length - 1

/-- The position of an offset. Past the end, it is that of the end. -/
def position (m : LineMap) (source : String) (offset : Nat) : Position :=
  let line := m.lineOf offset
  let stop := min offset source.utf8ByteSize
  let start := min (m.starts[line]?.getD 0) stop
  ⟨line, ((slice source.toList start stop).getD []).length⟩

/-- A text without the line ends at its own end. -/
def trimLineEnd (cs : List Char) : List Char := (cs.reverse.dropWhile isLineEnd).reverse

/-- The text of a line without its end. -/
def lineText (m : LineMap) (source : String) (line : Nat) : Option String :=
  match m.starts[line]? with
  | none => none
  | some start =>
    let stop := m.starts[line + 1]?.getD source.utf8ByteSize
    (slice source.toList start stop).map fun cs => String.ofList (trimLineEnd cs)

end LineMap

end RefCheck.Text
