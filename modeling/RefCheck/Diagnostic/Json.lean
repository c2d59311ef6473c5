import RefCheck.Diagnostic.Bag
import RefCheck.Json.Reader
import RefCheck.Json.Printer

/-!
# Diagnostics in JSON

A diagnostic is a record with its fields in a fixed order; arguments are left out when there are
none. A category is written as its name. What is off may also be called disabled, and any category
may be given as an object with the name as its only key and nothing as its value.
-/

namespace RefCheck

open RefCheck.Json

def Category.ofName? : String → Option Category
  | "error" => some .error
  | "warning" => some .warning
  | "off" | "disabled" => some .off
  | _ => none

def Category.ofJson? : Value → Option Category
  | .text (some name) => ofName? name
  | .object [(some name, .null)] => ofName? name
  | _ => none

namespace Diagnostic

def fieldNames : List String :=
  ["file", "start", "length", "key", "category", "message_text", "args"]

def ofJson? (v : Value) : Option Diagnostic := do
  match ← v.asRecord fieldNames with
  | [file, start, length, key, category, message, args] =>
    return {
      file := ← required Value.asText file
      start := ← required Value.asWord start
      length := ← required Value.asWord length
      key := ← required Value.asText key
      category := ← required Category.ofJson? category
      message := ← required Value.asText message
      args := ← defaulted [] (Value.asList Value.asText) args }
  | _ => none

/-- The diagnostic that a JSON text spells. -/
def read (source : String) : Option Diagnostic := (Json.read source).bind ofJson?

/-- The diagnostics that a JSON text spells. -/
def readAll (source : String) : Option (List Diagnostic) :=
  (Json.read source).bind (Value.asList ofJson?)

def print (level : Nat) (d : Diagnostic) : List Char :=
  let args := if d.args.isEmpty then [] else
    [printMember "args" (printArray (level + 1) (d.args.map quoted))]
  printObject level ([
    printMember "file" (quoted d.file),
    printMember "start" (printNatural d.start),
    printMember "length" (printNatural d.length),
    printMember "key" (quoted d.key),
    printMember "category" (quoted d.category.name),
    printMember "message_text" (quoted d.message)] ++ args)

/-- Diagnostics as a JSON text. -/
def printAll (ds : List Diagnostic) : String :=
  String.ofList (printArray 0 (ds.map (print 1)))

end Diagnostic

namespace Levels

/-- Levels are an object from keys to categories, in which the last member with a key counts. -/
def ofJson? : Value → Option Levels
  | .object members => members.foldlM (fun l (key, category) => do
      return l.set (← key) (← Category.ofJson? category)) Levels.none
  | _ => Option.none

/-- The levels that a JSON text spells. -/
def read (source : String) : Option Levels := (Json.read source).bind ofJson?

end Levels

end RefCheck
