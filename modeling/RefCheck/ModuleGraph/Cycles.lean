import RefCheck.ModuleGraph.Basic

/-!
# Circular dependencies

Modules that depend on each other form a component. The search goes into a module's dependencies
before it closes the module, and keeps the open modules on a stack. A module from which nothing
lower on the stack can be reached is the lowest of its component, which is then all that lies on
the stack down to it.
-/

namespace RefCheck.ModuleGraph

/-- The open modules, the latest first, and the components that were closed. -/
structure Search where
  stack : List ModuleId
  components : List (List ModuleId)
deriving DecidableEq, Repr

namespace Search

def isClosed (s : Search) (id : ModuleId) : Bool := s.components.any (·.contains id)

/-- How high an open module lies on the stack; the lowest one is at height one. -/
def height (s : Search) (id : ModuleId) : Nat := (s.stack.dropWhile (· ≠ id)).length

/-- Takes the component of a module off the stack, down to the module itself. -/
def close (s : Search) (id : ModuleId) : Search :=
  ⟨(s.stack.dropWhile (· ≠ id)).tail,
    s.components ++ [s.stack.takeWhile (· ≠ id) ++ [id]]⟩

end Search

/-- Opens a module and searches all that it leads to. The number is the lowest height on the stack
that was met on the way. -/
def visit (g : ModuleGraph) : (fuel : Nat) → ModuleId → Search → Nat × Search
  | 0, _, s => (s.stack.length + 1, s)
  | fuel + 1, id, s =>
    let own := s.stack.length + 1
    let (low, s) := (g.deps id).foldl (fun (low, s) dep =>
        if s.isClosed dep then (low, s)
        else if dep ∈ s.stack then (min low (s.height dep), s)
        else
          let (met, s) := g.visit fuel dep s
          (min low met, s))
      (own, { s with stack := id :: s.stack })
    (low, if low = own then s.close id else s)

/-- The components of all modules, each after those that it leads to. No way in is longer than the
number of modules and dependencies. -/
def components (g : ModuleGraph) : List (List ModuleId) :=
  let fuel := g.size + g.edgeCount + 1
  let search := (List.range g.size).foldl (fun s id =>
    if s.isClosed id then s else (g.visit fuel id s).2) ⟨[], []⟩
  search.components

/-- Whether a component is circular: it has several members, or one that depends on itself. -/
def isCircular (g : ModuleGraph) (component : List ModuleId) : Bool :=
  match component with
  | [id] => (g.deps id).contains id
  | _ => 1 < component.length

def cycles (g : ModuleGraph) : List (List ModuleId) := g.components.filter g.isCircular

def cycleNames (g : ModuleGraph) (cycle : List ModuleId) : List String := cycle.map g.name

end RefCheck.ModuleGraph
