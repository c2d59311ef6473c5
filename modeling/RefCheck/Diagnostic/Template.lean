/-!
# Message templates

A number in braces stands for the argument with that number, counted from zero. A number without an
argument stays as it is written, and so does every other character. Arguments are copied as they
are, also where they look like a template.
-/

namespace RefCheck.Diagnostic.Template

/-- The argument that is meant by what follows an opening brace, and how many characters it
takes up to and with the closing brace. -/
def placeholder (args : List String) (rest : List Char) : Option (String × Nat) :=
  let digits := rest.takeWhile Char.isDigit
  if digits ≠ [] ∧ rest[digits.length]? = some '\x7d' then
    args[Nat.ofDigitChars 10 digits 0]?.map fun arg => (arg, digits.length + 1)
  else
    none

/-- Copies a template while putting the arguments in; the first `skip` characters are left out. -/
def fillFrom (args : List String) : (skip : Nat) → List Char → List Char
  | _, [] => []
  | skip + 1, _ :: rest => fillFrom args skip rest
  | 0, c :: rest =>
    if c = '\x7b' then
      match placeholder args rest with
      | some (arg, skip) => arg.toList ++ fillFrom args skip rest
      | none => c :: fillFrom args 0 rest
    else
      c :: fillFrom args 0 rest

/-- The template with its arguments in place. -/
def fill (template : String) (args : List String) : String :=
  String.ofList (fillFrom args 0 template.toList)

end RefCheck.Diagnostic.Template
