import RefCheck.Diagnostic.Json

/-!
# Project files

A project file names externs and modules with their dependencies and files, and gives options for
the check. Module names are not empty and not used twice, and a dependency names a module.
-/

namespace RefCheck.Project

open RefCheck.Json

/-- A module as it is written in a project file. -/
structure ModuleEntry where
  name : String
  deps : List String
  files : List String
deriving DecidableEq, Repr

structure Options where
  sanityCheck : Option Bool
  levels : Levels
deriving DecidableEq, Repr

def Options.none : Options := ⟨Option.none, Levels.none⟩

structure Config where
  externs : List String
  modules : List ModuleEntry
  options : Options
deriving DecidableEq, Repr

def Config.empty : Config := ⟨[], [], Options.none⟩

/-- What is wrong with a project file. -/
inductive ConfigError
  | malformed
  | emptyName
  | duplicateName (name : String)
  | unknownDependency (name dep : String)
deriving DecidableEq, Repr

def ConfigError.message : ConfigError → String
  | malformed => "malformed project file"
  | emptyName => "module names must not be empty"
  | duplicateName name => "duplicate module '" ++ name ++ "'"
  | unknownDependency name dep =>
    "module '" ++ name ++ "' depends on unknown module '" ++ dep ++ "'"

def ModuleEntry.ofJson? (v : Value) : Option ModuleEntry := do
  match ← v.asRecord ["name", "deps", "files"] with
  | [name, deps, files] =>
    return {
      name := ← required Value.asText name
      deps := ← defaulted [] (Value.asList Value.asText) deps
      files := ← defaulted [] (Value.asList Value.asText) files }
  | _ => none

/-- A truth value, or nothing where nothing is written. -/
def optionalBool : Value → Option (Option Bool)
  | .null => some none
  | v => v.asBool.map some

def Options.ofJson? (v : Value) : Option Options := do
  match ← v.asRecord ["sanityCheck", "warningLevels"] with
  | [sanityCheck, levels] =>
    return {
      sanityCheck := ← defaulted Option.none optionalBool sanityCheck
      levels := ← defaulted Levels.none Levels.ofJson? levels }
  | _ => Option.none

def Config.ofJson? (v : Value) : Option Config := do
  match ← v.asRecord ["externs", "modules", "options"] with
  | [externs, modules, options] =>
    return {
      externs := ← defaulted [] (Value.asList Value.asText) externs
      modules := ← defaulted [] (Value.asList ModuleEntry.ofJson?) modules
      options := ← defaulted Options.none Options.ofJson? options }
  | _ => none

/-- Names in order: none is empty and none stands among those before it. -/
def checkNames (before : List String) : List ModuleEntry → Except ConfigError Unit
  | [] => .ok ()
  | m :: rest =>
    if m.name = "" then .error .emptyName
    else if m.name ∈ before then .error (.duplicateName m.name)
    else checkNames (m.name :: before) rest

/-- The first dependency that names none of the modules. -/
def unknownDependency? (names : List String) (m : ModuleEntry) : Option ConfigError :=
  (m.deps.find? fun dep => !names.contains dep).map (.unknownDependency m.name)

def validate (modules : List ModuleEntry) : Except ConfigError Unit :=
  match checkNames [] modules with
  | .error e => .error e
  | .ok () =>
    match modules.findSome? (unknownDependency? (modules.map (·.name))) with
    | some e => .error e
    | none => .ok ()

/-- The project that a text describes. -/
def Config.read (source : String) : Except ConfigError Config :=
  match (Json.read source).bind Config.ofJson? with
  | none => .error .malformed
  | some config => (validate config.modules).map fun () => config

end RefCheck.Project
