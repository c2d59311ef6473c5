import RefCheck.Text.Span
import RefCheck.Diagnostic.Template

/-!
# Diagnostics

A rule names what can be wrong: a key that never changes, how grave it is unless told otherwise,
and a template for the message. A diagnostic is one finding against a rule at one place.
-/

namespace RefCheck

open RefCheck.Text

/-- How grave a finding is. What is off is not shown. -/
inductive Category
  | error | warning | off
deriving DecidableEq, Repr, Inhabited

def Category.name : Category → String
  | error => "error"
  | warning => "warning"
  | off => "off"

structure Rule where
  key : String
  category : Category
  template : String
deriving DecidableEq, Repr

structure Diagnostic where
  file : String
  start : Nat
  length : Nat
  key : String
  category : Category
  message : String
  args : List String
deriving DecidableEq, Repr

/-- A finding against a rule, as grave as the rule says. -/
def Rule.diagnostic (rule : Rule) (file : String) (span : Span) (args : List String) :
    Diagnostic :=
  ⟨file, span.start, span.length, rule.key, rule.category,
    Diagnostic.Template.fill rule.template args, args⟩

namespace Diagnostic

def isError (d : Diagnostic) : Bool := d.category = .error

def isWarning (d : Diagnostic) : Bool := d.category = .warning

/-- A diagnostic on one line, placed by its byte offset. -/
def display (d : Diagnostic) : String :=
  d.file ++ ":" ++ toString d.start ++ ": " ++ d.category.name ++ " " ++ d.key ++ ": " ++ d.message

end Diagnostic

end RefCheck
