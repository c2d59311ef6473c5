/-!
# JSON values

What a JSON text says. A text with half a surrogate pair in it spells no string: it is kept without
its characters, so that it may be skipped but not used. Of numbers only those that are written as
naturals can be used.

A record is written as an object with named fields, of which unknown ones are skipped and known ones
may stand once, or as an array of the fields in order, where the last ones may be left out.
-/

namespace RefCheck.Json

inductive Value
  | null
  | bool (b : Bool)
  | natural (n : Nat)
  | otherNumber
  | text (t : Option String)
  | array (items : List Value)
  | object (members : List (Option String × Value))
deriving Repr, Inhabited

namespace Value

def asText : Value → Option String
  | text t => t
  | _ => none

def asBool : Value → Option Bool
  | bool b => some b
  | _ => none

/-- A natural number of 32 bits. -/
def asWord : Value → Option Nat
  | natural n => if n < UInt32.size then some n else none
  | _ => none

def asList {α : Type} (item : Value → Option α) : Value → Option (List α)
  | array items => items.mapM item
  | _ => none

/-- The fields with the given names. A field that is not there is `none`. -/
def asRecord (names : List String) : Value → Option (List (Option Value))
  | array items =>
    if items.length ≤ names.length then
      some (items.map some ++ List.replicate (names.length - items.length) none)
    else none
  | object members =>
    let known := members.filterMap fun (name, _) => name.filter names.contains
    if members.all (·.1.isSome) && decide known.Nodup then
      some (names.map fun name => members.lookup (some name))
    else none
  | _ => none

end Value

/-- A field that has to be there. -/
def required {α : Type} (item : Value → Option α) (field : Option Value) : Option α :=
  field.bind item

/-- A field that has a value of its own when it is not there. -/
def defaulted {α : Type} (value : α) (item : Value → Option α) (field : Option Value) : Option α :=
  match field with
  | none => some value
  | some v => item v

end RefCheck.Json
