import RefCheck.Walk.Basic
import RefCheck.Check.Externs
import RefCheck.Check.Placeholders
import RefCheck.Check.Rules

/-!
# References to variables

Every name has to be declared somewhere, and a reference into another module has to be covered by
the dependencies between modules. A name that is declared nowhere is reported once and then gets a
placeholder. In a sanity check the program is taken to be repaired already: such a name stops the
check, and every uncovered reference between modules breaks the strict rule.
-/

namespace RefCheck.Check

open RefCheck.Text RefCheck.Script

/-- What stops a check. -/
inductive VariableError
  | unexpectedVariable (name file : String) (span : Span)
  | emptyName (file : String) (span : Span)
deriving DecidableEq, Repr

def VariableError.message : VariableError → String
  | unexpectedVariable name file span =>
    "Unexpected variable " ++ name ++ " at " ++ file ++ ":" ++ toString span.start
  | emptyName file span =>
    "empty name outside a function name at " ++ file ++ ":" ++ toString span.start

/-- The placeholders of a check, if any were needed so far. -/
abbrev Repairs := Option Placeholders

/-- The placeholders of a check, made on first use. -/
def placeholders (repairs : Repairs) (p : Program) : Program × Placeholders :=
  match repairs with
  | some h => (p, h)
  | none => Placeholders.create p

/-- Gives a name a placeholder, and declares it in the global scope. -/
def repair (place : Place) (name : String) (s : WalkState Repairs) : WalkState Repairs :=
  let (p, h) := placeholders s.own s.program
  let (p, node) := h.declare p name
  ({ s with program := p, own := some h } : WalkState Repairs).declareGlobal place name node h.input

/-- The rule that is broken by a reference from one module to a variable of another one, if the
reference is not covered. -/
def brokenRule (sanity : Bool) (g : ModuleGraph) (module other : ModuleId) (isGlobal : Bool) :
    Option Rule :=
  if module = other || g.dependsOn module other then none
  else if !sanity && isGlobal then
    some (if g.dependsOn other module then Rule.violatedModuleDependency
      else Rule.missingModuleDependency)
  else some Rule.strictModuleDependency

/-- Checks a name without a text, which only a function may have. -/
def emptyName (place : Place) (s : WalkState Repairs) :
    Progress VariableError (WalkState Repairs) :=
  let store := s.program.store
  if store.kind? place.parent ≠ some .function then
    .stopped (.emptyName (s.sourceName place) (store.span (some place.node))) s
  else if store.isFunctionDeclaration place.parent then
    .on (s.report place Rule.invalidFunctionDeclaration [])
  else
    .on s

/-- Handles a name that is declared nowhere. The name of a function expression may be, since it is
bound inside the function only. -/
def undeclared (sanity : Bool) (place : Place) (name : String) (s : WalkState Repairs) :
    Progress VariableError (WalkState Repairs) :=
  let store := s.program.store
  if store.isFunctionExpression place.parent then .on s
  else
    let t := s.report place Rule.undefinedVariable [name]
    if sanity then
      .stopped (.unexpectedVariable name (s.sourceName place) (store.span (some place.node))) t
    else
      .on (repair place name t)

/-- Checks a reference against the modules of the two inputs, if both have one. -/
def reference (sanity : Bool) (place : Place) (name : String) (var : Var)
    (s : WalkState Repairs) : WalkState Repairs :=
  match place.input, var.input with
  | some input, some declaring =>
    if input = declaring then s
    else
      match s.program.moduleOf input, s.program.moduleOf declaring with
      | some module, some other =>
        let g := s.program.modules
        match brokenRule sanity g module other var.isGlobal with
        | some rule => s.report place rule [g.name module, g.name other, name]
        | none => s
      | _, _ => s
  | _, _ => s

/-- Checks a node, if it is a name and not that of a label. -/
def variableNames (sanity : Bool) : Visitor VariableError Repairs := fun place s =>
  let store := s.program.store
  if store.kind? (some place.node) ≠ some .name || store.isLabelName (some place.node) then .on s
  else
    let name := store.text (some place.node)
    if name = "" then emptyName place s
    else
      match s.lookup? place name with
      | none => undeclared sanity place name s
      | some var => .on (reference sanity place name var s)

/-- How a check ended: the program and the placeholders after it, and what stopped it. -/
structure Verdict where
  program : Program
  repairs : Repairs
  error : Option VariableError
deriving DecidableEq, Repr

def Verdict.ofWalk (walked : Progress VariableError (WalkState Repairs)) : Verdict :=
  ⟨walked.state.program, walked.state.own, walked.error?⟩

/-- Checks the externs, and then all names of the program. -/
def run (sanity : Bool) (repairs : Repairs) (p : Program) : Verdict :=
  let p := externs p (some Program.externsRoot)
  .ofWalk (Walk.roots (variableNames sanity) p
    [some Program.externsRoot, some Program.mainRoot] repairs)

end RefCheck.Check
