import RefCheck.Json.Value
import RefCheck.Json.Quoted

/-!
# Reading JSON

Strict JSON: only space, tab, line feed and carriage return are blank, nothing but blanks surrounds
the value, and numbers are written without needless zeros. Each reader answers with what it read and
with the characters after it.
-/

namespace RefCheck.Json

def isBlank (c : Char) : Bool := c = ' ' || c = '\t' || c = '\n' || c = '\r'

def skipBlanks (cs : List Char) : List Char := cs.dropWhile isBlank

/-- Takes one character, which has to be there. -/
def expectChar (c : Char) (cs : List Char) : Option (List Char) :=
  match cs with
  | [] => none
  | d :: rest => if d = c then some rest else none

/-- Some decimal digits, at least one. -/
def digits (cs : List Char) : Option (List Char × List Char) :=
  let ds := cs.takeWhile Char.isDigit
  if ds = [] then none else some (ds, cs.dropWhile Char.isDigit)

/-- A fraction, if there is one. -/
def skipFraction (cs : List Char) : Option (List Char) :=
  match cs with
  | '.' :: rest => (digits rest).map (·.2)
  | _ => some cs

/-- An exponent, if there is one. -/
def skipExponent (cs : List Char) : Option (List Char) :=
  match cs with
  | e :: rest =>
    if e = 'e' ∨ e = 'E' then
      match rest with
      | '+' :: rest | '-' :: rest => (digits rest).map (·.2)
      | _ => (digits rest).map (·.2)
    else some cs
  | [] => some []

/-- A number. It is natural if only digits stand in it. -/
def number (cs : List Char) : Option (Value × List Char) := do
  let (negative, cs) := match cs with
    | '-' :: rest => (true, rest)
    | _ => (false, cs)
  let (ds, whole) ← digits cs
  if ds.head? = some '0' && 1 < ds.length then none
  let after ← skipExponent (← skipFraction whole)
  if negative || after.length < whole.length then
    return (.otherNumber, after)
  else
    return (.natural (Nat.ofDigitChars 10 ds 0), after)

/-- A text, after its opening quote. -/
def text (cs : List Char) : Option (Option String × List Char) :=
  (pieces cs).map fun (parts, after) => ((assemble parts).map String.ofList, after)

/-- One of the words that are values. -/
def word (cs : List Char) : Option (Value × List Char) :=
  match cs with
  | 'n' :: 'u' :: 'l' :: 'l' :: rest => some (.null, rest)
  | 't' :: 'r' :: 'u' :: 'e' :: rest => some (.bool true, rest)
  | 'f' :: 'a' :: 'l' :: 's' :: 'e' :: rest => some (.bool false, rest)
  | _ => none

mutual

/-- A value with blanks before it. -/
def value : (fuel : Nat) → List Char → Option (Value × List Char)
  | 0, _ => none
  | fuel + 1, cs =>
    match skipBlanks cs with
    | [] => none
    | '"' :: rest => (text rest).map fun (t, after) => (.text t, after)
    | '[' :: rest =>
      match skipBlanks rest with
      | ']' :: after => some (.array [], after)
      | _ => (items fuel rest).map fun (vs, after) => (.array vs, after)
    | '\x7b' :: rest =>
      match skipBlanks rest with
      | '\x7d' :: after => some (.object [], after)
      | _ => (members fuel rest).map fun (ms, after) => (.object ms, after)
    | c :: rest => if c = '-' || c.isDigit then number (c :: rest) else word (c :: rest)

/-- The values of an array, one at least, up to and with the closing bracket. -/
def items : (fuel : Nat) → List Char → Option (List Value × List Char)
  | 0, _ => none
  | fuel + 1, cs =>
    match value fuel cs with
    | none => none
    | some (v, after) =>
      match skipBlanks after with
      | ',' :: rest => (items fuel rest).map fun (vs, after) => (v :: vs, after)
      | ']' :: rest => some ([v], rest)
      | _ => none

/-- The members of an object, one at least, up to and with the closing brace. -/
def members : (fuel : Nat) → List Char → Option (List (Option String × Value) × List Char)
  | 0, _ => none
  | fuel + 1, cs =>
    match (expectChar '"' (skipBlanks cs)).bind text with
    | none => none
    | some (name, after) =>
      match (expectChar ':' (skipBlanks after)).bind (value fuel) with
      | none => none
      | some (v, after) =>
        match skipBlanks after with
        | ',' :: rest => (members fuel rest).map fun (ms, after) => ((name, v) :: ms, after)
        | '\x7d' :: rest => some ([(name, v)], rest)
        | _ => none

end

/-- The value that a whole text spells. Every two steps take a character at least. -/
def read (source : String) : Option Value :=
  match value (2 * source.toList.length + 2) source.toList with
  | some (v, after) => if skipBlanks after = [] then some v else none
  | none => none

end RefCheck.Json
