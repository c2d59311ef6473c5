import RefCheck.Project.Failure
import RefCheck.ModuleGraph.Cycles

/-!
# Building a program

The modules of a project become a module graph, which must have no cycle. Then the externs are read,
and the files of the modules in order. A module without a name stands for files outside all
modules.
-/

namespace RefCheck.Project

/-- A project file together with the directory that its paths are meant from. -/
structure Located where
  config : Config
  baseDir : String
deriving DecidableEq, Repr

/-- The modules of the entries in order, without the nameless ones. -/
def declareModules (modules : List ModuleEntry) : ModuleGraph :=
  modules.foldl (fun g m => if m.name = "" then g else (g.add m.name).1) ModuleGraph.empty

/-- The id of a module, if the name is one. -/
def moduleId? (g : ModuleGraph) (name : String) : Option ModuleId :=
  if name = "" then none else g.find? name

/-- Adds the dependencies of an entry, as far as they name modules. -/
def addDependencies (g : ModuleGraph) (m : ModuleEntry) : ModuleGraph :=
  match moduleId? g m.name with
  | none => g
  | some id => (m.deps.filterMap (moduleId? g)).foldl (fun g dep => g.addDependency id dep) g

/-- The module graph of the entries. -/
def moduleGraph (modules : List ModuleEntry) : ModuleGraph :=
  modules.foldl addDependencies (declareModules modules)

/-- A file that is to become an input. -/
structure Job where
  path : String
  module : Option ModuleId
  isExtern : Bool
deriving DecidableEq, Repr

def externJob (path : String) : Job := ⟨path, none, true⟩

/-- All files of a project in the order in which they are read. -/
def jobs (project : Located) (extraExterns : List String) (g : ModuleGraph) : List Job :=
  project.config.externs.map (externJob ∘ Path.join project.baseDir) ++
    extraExterns.map externJob ++
    project.config.modules.flatMap fun m =>
      m.files.map fun file => ⟨Path.join project.baseDir file, moduleId? g m.name, false⟩

/-- What was read, and the program or what kept it from being built. -/
structure Built where
  filesRead : List String
  result : Except Failure Program

variable {m : Type → Type} [Monad m]

/-- Reads and adds files up to the first that fails. -/
def load (files : FileAccess m) (p : Program) : List Job → m Built
  | [] => return ⟨[], .ok p⟩
  | job :: rest => do
    match ← files.read job.path with
    | .error e => return ⟨[], .error (.unreadable job.path e)⟩
    | .ok source =>
      match p.addParsed job.path source job.module job.isExtern with
      | (_, .error e) =>
        return ⟨[], .error (if job.isExtern then .badExtern job.path e else .badSource job.path e)⟩
      | (p, .ok _) =>
        let built ← load files p rest
        return { built with filesRead := job.path :: built.filesRead }

/-- Builds the program of a project. -/
def build (files : FileAccess m) (project : Located) (levels : Levels)
    (extraExterns : List String) : m Built :=
  let g := moduleGraph project.config.modules
  match g.cycles with
  | cycle :: _ => return ⟨[], .error (.circular (g.cycleNames cycle))⟩
  | [] => load files { Program.empty levels with modules := g } (jobs project extraExterns g)

def fileName : String := "jsck.json"

/-- Reads the project file at a path, or the one in the directory at the path. -/
def open? (files : FileAccess m) (path : String) : m (Except Failure Located) := do
  let file := if ← files.isDirectory path then Path.join path fileName else path
  match ← files.read file with
  | .error e => return .error (.unreadableProject file e)
  | .ok source =>
    match Config.read source with
    | .error e => return .error (.badProject file e)
    | .ok config => return .ok ⟨config, Path.parent file⟩

end RefCheck.Project
