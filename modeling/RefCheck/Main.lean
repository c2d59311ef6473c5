import RefCheck.CommandLine.Check

/-!
# The command

Reads the arguments, the environment and the files, and writes what the check says.
-/

namespace RefCheck.Command

open RefCheck.CommandLine

/-- A path from the working directory; an absolute path stays. -/
def located (path : String) : IO (Option String) := do
  if path = "" then return none else return some ((← IO.currentDir) / path).toString

def fileError : IO.Error → FileError
  | .noFileOrDirectory .. => .notFound
  | .inappropriateType .. => .isDirectory
  | .resourceVanished .. => .notFound
  | _ => .notDirectory

/-- The file system of the machine. -/
def machine : FileAccess IO where
  read path := do
    match ← located path with
    | none => return .error .notFound
    | some file =>
      try
        let bytes ← IO.FS.readBinFile file
        return match String.fromUTF8? bytes with
          | some text => .ok text
          | none => .error .notText
      catch e => return .error (fileError e)
  isDirectory path := do
    match ← located path with
    | none => return false
    | some file =>
      try
        let _ ← (← IO.FS.realPath file).readDir
        return true
      catch _ => return false
  isFile path := do
    match ← located path with
    | none => return false
    | some file =>
      try
        let _ ← IO.FS.readBinFile file
        return true
      catch _ => return false

/-- The environment, as far as it is asked for. -/
def environment (names : List String) : IO (String → Option String) := do
  let values ← names.mapM fun name => do return (name, ← IO.getEnv name)
  return fun name => (values.lookup name).join

def run (words : List String) : IO Output := do
  match Arguments.parse words with
  | .error e =>
    let code := e.exitCode
    return if code = 0 then ⟨code, e.message ++ "\n", ""⟩
      else ⟨code, "", "error: " ++ e.message ++ "\n"⟩
  | .ok args =>
    let outcome ← check machine args (← IO.currentDir).toString
    let env ← environment ["CLICOLOR", "CLICOLOR_FORCE", "NO_COLOR"]
    let colors := allowsColor env (← (← IO.getStdout).isTty)
    return output args (← (← IO.getStderr).isTty) colors outcome

end RefCheck.Command

def main (words : List String) : IO UInt32 := do
  let output ← RefCheck.Command.run words
  (← IO.getStdout).putStr output.stdout
  (← IO.getStderr).putStr output.stderr
  return output.exitCode.toUInt32
