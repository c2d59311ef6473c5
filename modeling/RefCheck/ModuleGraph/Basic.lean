/-!
# The module graph

Modules have ids in the order in which they were added, and names that are used once. A module may
depend on ids that no module has.
-/

namespace RefCheck

abbrev ModuleId := Nat

/-- A module with the ids that it depends on directly, ascending. -/
structure ModuleInfo where
  name : String
  deps : List ModuleId
deriving DecidableEq, Repr

structure ModuleGraph where
  modules : List ModuleInfo
deriving DecidableEq, Repr

namespace ModuleGraph

def empty : ModuleGraph := ⟨[]⟩

def size (g : ModuleGraph) : Nat := g.modules.length

/-- Puts an id in its place among ascending ids, unless it is there. -/
def insertId (id : ModuleId) : List ModuleId → List ModuleId
  | [] => [id]
  | other :: rest =>
    if id < other then id :: other :: rest
    else if id = other then other :: rest
    else other :: insertId id rest

def find? (g : ModuleGraph) (name : String) : Option ModuleId :=
  g.modules.findIdx? fun m => m.name = name

/-- The id of the module with a name, which is added at the end if there is none. -/
def add (g : ModuleGraph) (name : String) : ModuleGraph × ModuleId :=
  match g.find? name with
  | some id => (g, id)
  | none => (⟨g.modules ++ [⟨name, []⟩]⟩, g.size)

/-- The name of a module, empty for an id that no module has. -/
def name (g : ModuleGraph) (id : ModuleId) : String := (g.modules[id]?.map (·.name)).getD ""

def deps (g : ModuleGraph) (id : ModuleId) : List ModuleId :=
  (g.modules[id]?.map (·.deps)).getD []

/-- Lets a module depend on an id. Nothing happens if there is no such module. -/
def addDependency (g : ModuleGraph) (source target : ModuleId) : ModuleGraph :=
  ⟨g.modules.modify source fun m => { m with deps := insertId target m.deps }⟩

def edgeCount (g : ModuleGraph) : Nat := (g.modules.flatMap fun m => m.deps).length

/-- Adds what is waiting to what was seen, with all that it leads to. -/
def gather (g : ModuleGraph) :
    (fuel : Nat) → (seen waiting : List ModuleId) → List ModuleId
  | 0, seen, _ => seen
  | _ + 1, seen, [] => seen
  | fuel + 1, seen, id :: waiting =>
    if id ∈ seen then g.gather fuel seen waiting
    else g.gather fuel (insertId id seen) (waiting ++ g.deps id)

/-- The ids that a module depends on, directly or not, ascending. Every edge is followed once, and
those of the module itself once more to begin with. -/
def dependencies (g : ModuleGraph) (id : ModuleId) : List ModuleId :=
  g.gather (2 * g.edgeCount + 1) [] (g.deps id)

def dependsOn (g : ModuleGraph) (source target : ModuleId) : Bool :=
  target ∈ g.dependencies source

end ModuleGraph

end RefCheck
