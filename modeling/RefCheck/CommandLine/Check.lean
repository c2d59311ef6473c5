import RefCheck.CommandLine.Arguments
import RefCheck.CommandLine.LogFormat
import RefCheck.Project.Build
import RefCheck.Report

/-!
# Checks from the command line

Which project the arguments mean, the levels that they ask for, the check itself, and what is
written about it.
-/

namespace RefCheck.CommandLine

open RefCheck.Project

variable {m : Type → Type} [Monad m]

/-- The project that is meant: the one that is named, the files that are named, or the one in the
working directory. -/
def resolve (files : FileAccess m) (args : Arguments) (cwd : String) :
    m (Except Failure Located) := do
  match args.project, args.files with
  | some path, _ => open? files (Path.join cwd path)
  | none, _ :: _ =>
    return .ok ⟨{ Config.empty with modules := [⟨"", [], args.files⟩] }, cwd⟩
  | none, [] =>
    let path := Path.join cwd fileName
    if ← files.isFile path then open? files path else return .error (.noInput cwd)

/-- The levels of a project with those of the arguments on top. They name rules only. -/
def levels (args : Arguments) (config : Config) : Except Failure Levels :=
  let levels := ((config.options.levels.setAll args.errorKeys .error).setAll
    args.warningKeys .warning).setAll args.offKeys .off
  match levels.overrides.find? fun (key, _) => (Rule.find? key).isNone with
  | some (key, _) => .error (.unknownKey key)
  | none => .ok levels

/-- What a check found. Sources are sorted by the names of their files. -/
structure CheckResult where
  diagnostics : List Diagnostic
  filesRead : List String
  sources : List (String × String)
  synthesized : List String
deriving DecidableEq, Repr

def CheckResult.hasErrors (r : CheckResult) : Bool := r.diagnostics.any Diagnostic.isError

/-- Puts the source of a file in its place, instead of an earlier one. -/
def insertSource (file text : String) : List (String × String) → List (String × String)
  | [] => [(file, text)]
  | (other, t) :: rest =>
    if file = other then (file, text) :: rest
    else if file < other then (file, text) :: (other, t) :: rest
    else (other, t) :: insertSource file text rest

/-- The sources of all inputs that have one. Of several with one name the last one counts. -/
def sourcesOf (p : Program) : List (String × String) :=
  p.inputs.foldl (fun sources input =>
    match input.source with
    | some text => insertSource input.name text sources
    | none => sources) []

/-- Checks a program that was built. -/
def checkProgram (sanity : Bool) (filesRead : List String) (p : Program) :
    Except Failure CheckResult :=
  let verdict := Check.run sanity none p
  match verdict.error with
  | some e => .error (.aborted e)
  | none =>
    .ok {
      diagnostics := verdict.program.bag.diagnostics
      filesRead := filesRead
      sources := sourcesOf verdict.program
      synthesized := (verdict.repairs.map (·.names verdict.program)).getD [] }

/-- Checks what the arguments mean. -/
def check (files : FileAccess m) (args : Arguments) (cwd : String) :
    m (Except Failure CheckResult) := do
  match ← resolve files args cwd with
  | .error e => return .error e
  | .ok project =>
    match levels args project.config with
    | .error e => return .error e
    | .ok levels =>
      let sanity := args.sanityCheck || project.config.options.sanityCheck.getD false
      let built ← build files project levels args.externs
      return match built.result with
        | .error e => .error e
        | .ok p => checkProgram sanity built.filesRead p

/-- What a program run writes and how it ends. -/
structure Output where
  exitCode : Nat
  stdout : String
  stderr : String
deriving DecidableEq, Repr

/-- The cause of a failure with each line indented. -/
def indented (cause : String) : String :=
  String.ofList ("    ".toList ++ cause.toList.flatMap fun c =>
    if c = '\n' then "\n    ".toList else [c])

def failureText (f : Failure) : String :=
  "Error: " ++ f.message ++
    (match f.cause with
    | none => ""
    | some cause => "\n\nCaused by:\n" ++ indented cause) ++ "\n"

/-- Findings as text, each with its source line, and their numbers; nothing if there are none. -/
def resultText (r : CheckResult) (color : Bool) : String :=
  if r.diagnostics.isEmpty then ""
  else
    let reporter := r.sources.foldl (fun reporter (file, text) => reporter.addSource file text)
      (Reporter.new color fun _ => none)
    (reporter.render r.diagnostics).2 ++ reporter.summary r.diagnostics ++ "\n"

/-- What is written about the outcome of a check. `pretty` holds where the arguments do not say,
and colours appear only where they are allowed. -/
def output (args : Arguments) (pretty colors : Bool) (outcome : Except Failure CheckResult) :
    Output :=
  match outcome with
  | .error f => ⟨1, "", failureText f⟩
  | .ok r =>
    let exitCode := if r.hasErrors then 2 else 0
    match args.format with
    | some .json => ⟨exitCode, Diagnostic.printAll r.diagnostics ++ "\n", ""⟩
    | _ => ⟨exitCode, "", resultText r (args.pretty.getD pretty && colors)⟩

end RefCheck.CommandLine
