import RefCheck.Project.Config
import RefCheck.Project.Files
import RefCheck.Check.Variables

/-!
# Failures

Why a check gives no result. A failure has a message, and often a cause with a message of its own.
-/

namespace RefCheck.Project

open RefCheck.Script

inductive Failure
  | noInput (directory : String)
  | unreadableProject (path : String) (cause : FileError)
  | badProject (path : String) (cause : ConfigError)
  | unknownKey (key : String)
  | circular (names : List String)
  | unreadable (path : String) (cause : FileError)
  | badExtern (path : String) (cause : SyntaxError)
  | badSource (path : String) (cause : SyntaxError)
  | aborted (cause : Check.VariableError)
deriving DecidableEq, Repr

namespace Failure

def message : Failure → String
  | noInput directory => "no input files and no jsck.json found in " ++ directory
  | unreadableProject path _ => "failed to read project: " ++ path
  | badProject path _ => "failed to parse project: " ++ path
  | unknownKey key => "unknown diagnostic key '" ++ key ++ "'"
  | circular names => "circular module dependency: " ++ " -> ".intercalate names
  | unreadable path _ => "failed to read: " ++ path
  | badExtern path _ => "failed to parse externs: " ++ path
  | badSource path _ => "failed to parse: " ++ path
  | aborted _ => "variable check aborted"

def cause : Failure → Option String
  | noInput _ | unknownKey _ | circular _ => none
  | unreadableProject _ e | unreadable _ e => some e.message
  | badProject _ e => some e.message
  | badExtern _ e | badSource _ e => some e.display
  | aborted e => some e.message

/-- The messages from the outermost to the cause. -/
def chain (f : Failure) : List String := f.message :: f.cause.toList

end Failure

end RefCheck.Project
