/-!
# Log formats and colours

What the environment says of how things are written: the format of a log, where case does not matter
and what names no format means plain text, and whether there are colours.
-/

namespace RefCheck.CommandLine

inductive LogFormat
  | text | tree | json
deriving DecidableEq, Repr

/-- The format that a word names. Only ASCII letters fold to those of the names. -/
def LogFormat.ofName (name : String) : LogFormat :=
  let folded := name.toList.map Char.toLower
  if folded = "tree".toList then .tree else if folded = "json".toList then .json else .text

/-- Whether colours are written at all, given the variables of the environment. They may be forced;
otherwise they may be switched off, and without other wishes they are for terminals. -/
def allowsColor (env : String → Option String) (stdoutIsTerminal : Bool) : Bool :=
  if (env "CLICOLOR_FORCE").any (· ≠ "0") then true
  else if (env "NO_COLOR").isSome then false
  else env "CLICOLOR" ≠ some "0" && stdoutIsTerminal

end RefCheck.CommandLine
