import RefCheck.Diagnostic.Basic
import RefCheck.Text.LineMap

/-!
# Reports for people

A diagnostic is shown with its place, and with the line of its source and an underline where the
source is known. A reporter is told the sources of files, or looks for them on disk, and keeps the
line map of each file that it has shown once.
-/

namespace RefCheck

open RefCheck.Text

/-- The parameters of the terminal sequence that turns a style on. -/
inductive Style
  | red | yellow | boldRed | boldYellow | dim | brightBlue
deriving DecidableEq, Repr

namespace Style

def code : Style → String
  | red => "31"
  | yellow => "33"
  | boldRed => "1;31"
  | boldYellow => "1;33"
  | dim => "2"
  | brightBlue => "94"

/-- The sequence that turns the style on. -/
def opening (s : Style) : List Char := '\x1b' :: '[' :: s.code.toList ++ ['m']

/-- The sequence that turns all styles off. -/
def reset : List Char := ['\x1b', '[', '0', 'm']

/-- Turns the style on again wherever a text turns it off. -/
def renew (s : Style) : List Char → List Char
  | [] => []
  | '\x1b' :: '[' :: '0' :: 'm' :: rest => reset ++ s.opening ++ s.renew rest
  | c :: rest => c :: s.renew rest

/-- A text in the style. -/
def paint (s : Style) (text : String) : String :=
  String.ofList (s.opening ++ s.renew text.toList ++ reset)

end Style

/-- The sources and line maps that are known so far, the latest first. -/
structure Reporter where
  color : Bool
  disk : String → Option String
  sources : List (String × String)
  lineMaps : List (String × LineMap)

namespace Reporter

def new (color : Bool) (disk : String → Option String) : Reporter := ⟨color, disk, [], []⟩

/-- Tells the source of a file, which is then not looked for on disk. -/
def addSource (r : Reporter) (file text : String) : Reporter :=
  { r with sources := (file, text) :: r.sources }

/-- Looks for the source of a file on disk, unless it is known. -/
def withSource (r : Reporter) (file : String) : Reporter :=
  match r.sources.lookup file with
  | some _ => r
  | none =>
    match r.disk file with
    | some text => r.addSource file text
    | none => r

/-- Makes the line map of a file whose source is known, unless there is one. -/
def withLineMap (r : Reporter) (file : String) : Reporter :=
  match r.lineMaps.lookup file, r.sources.lookup file with
  | none, some text => { r with lineMaps := (file, .ofSource text) :: r.lineMaps }
  | _, _ => r

/-- Makes what is needed to show places in a file. -/
def prepare (r : Reporter) (file : String) : Reporter := (r.withSource file).withLineMap file

/-- The position of an offset in a file whose source is known. -/
def position? (r : Reporter) (file : String) (offset : Nat) : Option Position :=
  match r.sources.lookup file, r.lineMaps.lookup file with
  | some text, some map => some (map.position text offset)
  | _, _ => none

def styled (r : Reporter) (style : Style) (text : String) : String :=
  if r.color then style.paint text else text

/-- A number with blanks before it, three characters wide at least. -/
def padded (n : Nat) : String :=
  let digits := (toString n).toList
  String.ofList (List.replicate (3 - digits.length) ' ' ++ digits)

/-- The underline of a span: blanks up to its first character and a mark under each character from
there on, as far as the line goes. Tabs stay tabs before the span. The end of the span is a word of
32 bits. -/
def underline (line : List Char) (first length : Nat) : List Char :=
  let stop := (first + length) % UInt32.size
  (line.take stop).zipIdx.map fun (c, i) =>
    if first ≤ i then '~' else if c = '\t' then '\t' else ' '

/-- An underline that shows at least one mark. -/
def marked (underline : List Char) : List Char :=
  if underline.contains '~' then underline else underline ++ ['~']

/-- The line of a span with its underline. -/
def snippet? (r : Reporter) (file : String) (start length : Nat) : Option String :=
  if file = "" ∨ length = 0 then none
  else do
    let position ← r.position? file start
    let text ← r.sources.lookup file
    let map ← r.lineMaps.lookup file
    let line ← map.lineText text position.line
    let under := String.ofList (marked (underline line.toList position.character length))
    return "\n  " ++ padded (position.line + 1) ++ "   " ++ line ++ "\n        " ++
      r.styled .red under

/-- Where a diagnostic stands. Lines and characters are counted from one. -/
def location (r : Reporter) (file : String) (start : Nat) : String :=
  if file = "" then "<unknown>"
  else
    match r.position? file start with
    | some p => file ++ ":" ++ toString (p.line + 1) ++ ":" ++ toString (p.character + 1)
    | none => file

def category (r : Reporter) (c : Category) : String :=
  let style := match c with
    | .error => Style.boldRed
    | .warning => .boldYellow
    | .off => .dim
  r.styled style c.name

/-- Shows a diagnostic. -/
def format (r : Reporter) (d : Diagnostic) : Reporter × String :=
  let r := if d.file = "" then r else r.prepare d.file
  let head := r.location d.file d.start ++ " - " ++ r.category d.category ++ " " ++
    r.styled .brightBlue d.key ++ ": " ++ d.message
  (r, head ++ (r.snippet? d.file d.start d.length).getD "")

/-- Shows diagnostics, each followed by a line feed. -/
def render (r : Reporter) : List Diagnostic → Reporter × String
  | [] => (r, "")
  | d :: rest =>
    let (r, first) := r.format d
    let (r, more) := r.render rest
    (r, first ++ "\n" ++ more)

/-- How many errors and warnings there are. -/
def summary (r : Reporter) (ds : List Diagnostic) : String :=
  let errors := (ds.filter (·.isError)).length
  let warnings := (ds.filter (·.isWarning)).length
  let text := toString errors ++ " error(s), " ++ toString warnings ++ " warning(s)"
  if 0 < errors then r.styled .red text
  else if 0 < warnings then r.styled .yellow text
  else text

end Reporter

end RefCheck
