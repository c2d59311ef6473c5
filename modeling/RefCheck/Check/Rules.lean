import RefCheck.Diagnostic.Basic

/-!
# The rules that are checked

The module rules take the name of the referring module, that of the declaring module and the name
that is referred to, in this order.
-/

namespace RefCheck.Rule

def undefinedVariable : Rule :=
  ⟨"JSC_UNDEFINED_VARIABLE", .error, "variable \x7b0\x7d is undefined"⟩

def violatedModuleDependency : Rule :=
  ⟨"JSC_VIOLATED_MODULE_DEPENDENCY", .error,
    "module \x7b0\x7d cannot reference \x7b2\x7d, defined in module \x7b1\x7d, since \x7b1\x7d " ++
      "loads after \x7b0\x7d"⟩

def missingModuleDependency : Rule :=
  ⟨"JSC_MISSING_MODULE_DEPENDENCY", .warning,
    "missing module dependency; module \x7b0\x7d should depend on module \x7b1\x7d because it " ++
      "references \x7b2\x7d"⟩

/-- Broken by every reference between modules that are not ordered, and off unless asked for. -/
def strictModuleDependency : Rule :=
  ⟨"JSC_STRICT_MODULE_DEPENDENCY", .off,
    "module \x7b0\x7d cannot reference \x7b2\x7d, defined in module \x7b1\x7d"⟩

def nameReferenceInExterns : Rule :=
  ⟨"JSC_NAME_REFERENCE_IN_EXTERNS", .warning, "accessing name \x7b0\x7d in externs has no effect"⟩

def invalidFunctionDeclaration : Rule :=
  ⟨"JSC_INVALID_FUNCTION_DECL", .error, "Syntax error: function declaration must have a name"⟩

def all : List Rule := [
  undefinedVariable, violatedModuleDependency, missingModuleDependency, strictModuleDependency,
  nameReferenceInExterns, invalidFunctionDeclaration]

def find? (key : String) : Option Rule := all.find? fun rule => rule.key = key

end RefCheck.Rule
