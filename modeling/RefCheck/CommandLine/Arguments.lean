/-!
# Command-line arguments

Words that start with a hyphen are flags, all others are files, and after two hyphens all words are
files. The value of a flag is written behind it, with or without an equals sign, or is the next
word. Such a value, like a run of files, is looked at only when the next flag is reached or the
words end, so an unknown flag right behind it is found first.
-/

namespace RefCheck.CommandLine

inductive OutputFormat
  | text | json
deriving DecidableEq, Repr

/-- What the words of a command line say. -/
structure Arguments where
  project : Option String
  externs : List String
  sanityCheck : Bool
  errorKeys : List String
  warningKeys : List String
  offKeys : List String
  format : Option OutputFormat
  pretty : Option Bool
  files : List String
deriving DecidableEq, Repr

namespace Arguments

def empty : Arguments := ⟨none, [], false, [], [], [], none, none, []⟩

end Arguments

/-- Why the words of a command line are not carried out. -/
inductive ArgumentError
  | unknownArgument | invalidValue | conflict | tooManyValues | help | version
deriving DecidableEq, Repr

namespace ArgumentError

/-- Asking for help or for the version is no mistake. -/
def exitCode : ArgumentError → Nat
  | help | version => 0
  | _ => 2

def message : ArgumentError → String
  | unknownArgument => "unexpected argument"
  | invalidValue => "invalid or missing value"
  | conflict => "an argument cannot be used several times"
  | tooManyValues => "unexpected value for an argument that takes none"
  | help => "jsck [options] [files]"
  | version => "jsck"

end ArgumentError

inductive Flag
  | project | externs | sanityCheck | errorKey | warningKey | offKey | format | pretty
  | help | version
deriving DecidableEq, Repr

namespace Flag

def ofLong? : String → Option Flag
  | "project" => some project
  | "externs" => some externs
  | "sanity-check" => some sanityCheck
  | "jscomp-error" => some errorKey
  | "jscomp-warning" => some warningKey
  | "jscomp-off" => some offKey
  | "format" => some format
  | "pretty" => some pretty
  | "help" => some help
  | "version" => some version
  | _ => none

def ofShort? : Char → Option Flag
  | 'p' => some project
  | 'h' => some help
  | 'V' => some version
  | _ => none

end Flag

/-- What is waiting to be looked at: nothing, a flag with its value or still without it, or a run of
files. -/
inductive Pending
  | none
  | flag (flag : Flag) (value : Option String)
  | files (paths : List String)
deriving DecidableEq, Repr

structure Parsing where
  arguments : Arguments
  pending : Pending
deriving DecidableEq, Repr

/-- A path has to have a name. -/
def checkPath (path : String) : Except ArgumentError String :=
  if path = "" then .error .invalidValue else .ok path

def readFormat : String → Except ArgumentError OutputFormat
  | "text" => .ok .text
  | "json" => .ok .json
  | _ => .error .invalidValue

def readBool : String → Except ArgumentError Bool
  | "true" => .ok true
  | "false" => .ok false
  | _ => .error .invalidValue

/-- Refuses a flag that was given before. -/
def once (given : Bool) : Except ArgumentError Unit :=
  if given then .error .conflict else .ok ()

/-- Takes a flag with its value; a flag without values takes no notice of it. -/
def Arguments.set (a : Arguments) (flag : Flag) (value : String) :
    Except ArgumentError Arguments := do
  match flag with
  | .project =>
    once a.project.isSome
    return { a with project := some (← checkPath value) }
  | .externs => return { a with externs := a.externs ++ [← checkPath value] }
  | .sanityCheck =>
    once a.sanityCheck
    return { a with sanityCheck := true }
  | .errorKey => return { a with errorKeys := a.errorKeys ++ [value] }
  | .warningKey => return { a with warningKeys := a.warningKeys ++ [value] }
  | .offKey => return { a with offKeys := a.offKeys ++ [value] }
  | .format =>
    once a.format.isSome
    return { a with format := some (← readFormat value) }
  | .pretty =>
    once a.pretty.isSome
    return { a with pretty := some (← readBool value) }
  | .help => .error .help
  | .version => .error .version

namespace Parsing

/-- Looks at what is waiting. A flag that still waits for its value has none. -/
def settle (p : Parsing) : Except ArgumentError Arguments :=
  match p.pending with
  | .none => .ok p.arguments
  | .flag _ none => .error .invalidValue
  | .flag flag (some value) => p.arguments.set flag value
  | .files paths => do
    let paths ← paths.mapM checkPath
    return { p.arguments with files := p.arguments.files ++ paths }

/-- Takes a word as a file. -/
def addFile (p : Parsing) (word : String) : Except ArgumentError Parsing :=
  match p.pending with
  | .files paths => .ok { p with pending := .files (paths ++ [word]) }
  | _ => do return ⟨← p.settle, .files [word]⟩

/-- Takes a word that is no flag: the value of a flag that waits for one, or a file. -/
def addWord (p : Parsing) (word : String) : Except ArgumentError Parsing :=
  match p.pending with
  | .flag flag none => .ok { p with pending := .flag flag (some word) }
  | _ => p.addFile word

/-- Takes a flag, with a value if one is attached to it. -/
def addFlag (p : Parsing) (flag : Flag) (attached : Option String) :
    Except ArgumentError Parsing :=
  match flag with
  | .sanityCheck | .help | .version =>
    if attached.isSome then .error .tooManyValues
    else do return ⟨← (← p.settle).set flag "", .none⟩
  | .pretty => do return ⟨← (← p.settle).set flag (attached.getD "true"), .none⟩
  | _ =>
    match attached with
    | some value => do return ⟨← (← p.settle).set flag value, .none⟩
    | none => do return ⟨← p.settle, .flag flag none⟩

/-- Takes a word after two hyphens: a name, and a value after an equals sign. -/
def addLong (p : Parsing) (word : List Char) : Except ArgumentError Parsing :=
  match Flag.ofLong? (String.ofList (word.takeWhile (· ≠ '='))) with
  | none => .error .unknownArgument
  | some flag =>
    match word.dropWhile (· ≠ '=') with
    | [] => p.addFlag flag none
    | _ :: value => p.addFlag flag (some (String.ofList value))

/-- Takes letters after one hyphen. What follows a letter that takes a value is the value. -/
def addShort (p : Parsing) : List Char → Except ArgumentError Parsing
  | [] => .ok p
  | c :: rest =>
    match Flag.ofShort? c with
    | none => .error .unknownArgument
    | some .project =>
      match rest with
      | [] => p.addFlag .project none
      | '=' :: value => p.addFlag .project (some (String.ofList value))
      | value => p.addFlag .project (some (String.ofList value))
    | some flag => do (← p.addFlag flag none).addShort rest

end Parsing

/-- Takes all words. -/
def Parsing.run (p : Parsing) : List String → Except ArgumentError Arguments
  | [] => p.settle
  | word :: rest =>
    match word.toList with
    | ['-', '-'] => do (← rest.foldlM Parsing.addFile p).settle
    | '-' :: '-' :: long => do (← p.addLong long).run rest
    | '-' :: c :: short => do (← p.addShort (c :: short)).run rest
    | _ => do (← p.addWord word).run rest

/-- What the words of a command line say, or the first thing that is wrong with them. -/
def Arguments.parse (words : List String) : Except ArgumentError Arguments :=
  (Parsing.mk .empty .none).run words

end RefCheck.CommandLine
