import RefCheck.Script.NodeStore
import RefCheck.ModuleGraph.Basic
import RefCheck.Diagnostic.Bag

/-!
# Programs

A program is made of inputs: externs, which stand for what the environment declares, and sources,
which may belong to modules. The script of each input lies below one of two roots. A source that
cannot be parsed adds no input, but the nodes that were finished by then stay in the store.
-/

namespace RefCheck

open RefCheck.Text RefCheck.Script

/-- A unit of source. Without a source text it was made up. -/
structure Input where
  id : InputId
  name : String
  module : Option ModuleId
  isExtern : Bool
  root : NodeId
  source : Option String
deriving DecidableEq, Repr

structure Program where
  store : NodeStore
  inputs : List Input
  modules : ModuleGraph
  bag : Bag
deriving DecidableEq, Repr

namespace Program

/-- The node above the scripts of all externs. -/
def externsRoot : NodeId := 0

/-- The node above the scripts of all other inputs. -/
def mainRoot : NodeId := 1

def empty (levels : Levels) : Program where
  store := (NodeStore.empty.push (.leaf .root "" Span.none none)).push
    (.leaf .root "" Span.none none)
  inputs := []
  modules := ModuleGraph.empty
  bag := Bag.withLevels levels

def rootFor (isExtern : Bool) : NodeId := if isExtern then externsRoot else mainRoot

/-- Parses a source and adds it as an input below its root. -/
def addParsed (p : Program) (name source : String) (module : Option ModuleId)
    (isExtern : Bool) : Program × Except SyntaxError InputId :=
  let id := p.inputs.length
  match p.store.parseInto id source with
  | (store, .error error) => ({ p with store := store }, .error error)
  | (store, .ok root) =>
    ({ p with
        store := store.appendChild (some (rootFor isExtern)) (some root)
        inputs := p.inputs ++ [⟨id, name, module, isExtern, root, some source⟩] }, .ok id)

theorem addParsed_of_error {source : String} {refusal : Refusal}
    (h : parse source = .error refusal) (p : Program) (name : String) (module : Option ModuleId)
    (isExtern : Bool) : p.addParsed name source module isExtern =
      ({ p with store := p.store.strew refusal.loose }, .error refusal.error) := by
  rw [addParsed, NodeStore.parseInto, h]

theorem addParsed_of_ok {source : String} {tree : Tree} (h : parse source = .ok tree) (p : Program)
    (name : String) (module : Option ModuleId) (isExtern : Bool) :
    p.addParsed name source module isExtern =
      ({ p with
          store := (p.store.plant p.inputs.length tree).appendChild (some (rootFor isExtern))
            (some (p.store.nextRoot tree))
          inputs := p.inputs ++ [⟨p.inputs.length, name, module, isExtern, p.store.nextRoot tree,
            some source⟩] }, .ok p.inputs.length) := by
  rw [addParsed, NodeStore.parseInto, h]

def addExtern (p : Program) (name source : String) : Program × Except SyntaxError InputId :=
  p.addParsed name source none true

def addSource (p : Program) (name source : String) (module : Option ModuleId) :
    Program × Except SyntaxError InputId :=
  p.addParsed name source module false

/-- Adds an extern with an empty script and no source text. -/
def newExtern (p : Program) (name : String) : Program × InputId :=
  let id := p.inputs.length
  let root := p.store.size
  ({ p with
      store := (p.store.push (.leaf .script "" Span.none (some id))).appendChild
        (some externsRoot) (some root)
      inputs := p.inputs ++ [⟨id, name, none, true, root, none⟩] }, id)

def input? (p : Program) (id : InputId) : Option Input := p.inputs[id]?

def inputName (p : Program) (id : InputId) : String := ((p.input? id).map (·.name)).getD ""

/-- The module that an input belongs to, if any. -/
def moduleOf (p : Program) (id : InputId) : Option ModuleId := (p.input? id).bind (·.module)

def report (p : Program) (d : Diagnostic) : Program := { p with bag := p.bag.report d }

end Program

end RefCheck
