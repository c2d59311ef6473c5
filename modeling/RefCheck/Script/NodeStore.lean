import RefCheck.Script.Grammar
import RefCheck.Script.Layout

/-!
# The store of nodes

All nodes in one array. Trees are laid out at its end, and single nodes may be added and hung below
others.
-/

namespace RefCheck.Script

open RefCheck.Text

/-- All nodes, by id. -/
structure NodeStore where
  nodes : Array Node
deriving DecidableEq, Repr

namespace NodeStore

def empty : NodeStore := ⟨#[]⟩

def size (s : NodeStore) : Nat := s.nodes.size

def get? (s : NodeStore) (id : Option NodeId) : Option Node := id.bind fun i => s.nodes[i]?

def kind? (s : NodeStore) (id : Option NodeId) : Option NodeKind := (s.get? id).map (·.kind)

def parent (s : NodeStore) (id : Option NodeId) : Option NodeId := (s.get? id).bind (·.parent)

def children (s : NodeStore) (id : Option NodeId) : List (Option NodeId) :=
  ((s.get? id).map (·.children)).getD []

def text (s : NodeStore) (id : Option NodeId) : String := ((s.get? id).map (·.text)).getD ""

def span (s : NodeStore) (id : Option NodeId) : Span := ((s.get? id).map (·.span)).getD Span.none

/-- Adds a node at the end; its id is the size before. -/
def push (s : NodeStore) (node : Node) : NodeStore := ⟨s.nodes.push node⟩

/-- Changes one node, if it is there. -/
def modify (s : NodeStore) (id : Option NodeId) (change : Node → Node) : NodeStore :=
  match id with
  | none => s
  | some i => ⟨s.nodes.modify i change⟩

/-- Puts a child behind the other children of a parent. Either of them may be missing. -/
def appendChild (s : NodeStore) (parent child : Option NodeId) : NodeStore :=
  (s.modify child fun node => { node with parent := parent }).modify parent
    fun node => { node with children := node.children ++ [child] }

/-- Adds a node with children that are there already. -/
def pushWith (s : NodeStore) (node : Node) (children : List (Option NodeId)) : NodeStore :=
  children.foldl (fun t child => t.appendChild (some s.size) child) (s.push node)

def setText (s : NodeStore) (id : Option NodeId) (text : String) : NodeStore :=
  s.modify id fun node => { node with text := text }

/-- Lays trees that nothing holds out at the end of the store. -/
def strew (s : NodeStore) (trees : List Tree) : NodeStore :=
  ⟨s.nodes ++ ((Tree.forestPlan s.size trees).nodes none []).toArray⟩

/-- Lays a script out at the end of the store. -/
def plant (s : NodeStore) (input : InputId) (tree : Tree) : NodeStore :=
  ⟨s.nodes ++ ((tree.plan s.size).nodes none (some input) []).toArray⟩

/-- The id that the root of a tree gets when the tree is laid out next. -/
def nextRoot (s : NodeStore) (tree : Tree) : NodeId := s.size + tree.rootOffset

/-- Parses a source into the store, as the script of an input, and answers with the id of the
script. The trees that were finished before a source is refused stay. -/
def parseInto (s : NodeStore) (input : InputId) (source : String) :
    NodeStore × Except SyntaxError NodeId :=
  match parse source with
  | .error refusal => (s.strew refusal.loose, .error refusal.error)
  | .ok tree => (s.plant input tree, .ok (s.nextRoot tree))

theorem strew_nodes (s : NodeStore) (trees : List Tree) :
    (s.strew trees).nodes = s.nodes ++ (Tree.forestLayout s.size none trees).toArray := by
  simp [strew, Tree.forestPlan_eq]

theorem plant_nodes (s : NodeStore) (input : InputId) (tree : Tree) :
    (s.plant input tree).nodes =
      s.nodes ++ (tree.layout s.size none (some input)).toArray := by
  simp [plant, Tree.plan_eq]

/-- The input of the nearest script on the way up, within so many steps. -/
def inputWithin (s : NodeStore) : (steps : Nat) → Option NodeId → Option InputId
  | 0, _ => none
  | steps + 1, id =>
    match s.get? id with
    | none => none
    | some node => if node.kind = .script then node.input else s.inputWithin steps node.parent

/-- The input of the script that a node belongs to. A way up without a loop passes each node
once. -/
def inputOf (s : NodeStore) (id : Option NodeId) : Option InputId := s.inputWithin (s.size + 1) id

/-- Whether a node is the name of a label, where it is put or where it is jumped to. -/
def isLabelName (s : NodeStore) (id : Option NodeId) : Bool :=
  match s.get? id with
  | none => false
  | some node =>
    node.kind = .name &&
      match s.get? node.parent with
      | none => false
      | some parent =>
        (parent.kind = .label || parent.kind = .breakOut || parent.kind = .continueOn) &&
          parent.firstChild = id

/-- Whether a node is a function in the place of a statement, which has to have a name. -/
def isFunctionDeclaration (s : NodeStore) (id : Option NodeId) : Bool :=
  s.kind? id = some .function &&
    ((s.kind? (s.parent id)).map (·.holdsStatements)).getD false

/-- Whether a node is a function in the place of a value, whose name only its inside sees. -/
def isFunctionExpression (s : NodeStore) (id : Option NodeId) : Bool :=
  s.kind? id = some .function && !s.isFunctionDeclaration id

def functionName (s : NodeStore) (id : Option NodeId) : Option NodeId := (s.children id)[0]?.join

def functionParams (s : NodeStore) (id : Option NodeId) : Option NodeId := (s.children id)[1]?.join

def functionBody (s : NodeStore) (id : Option NodeId) : Option NodeId := (s.children id)[2]?.join

end NodeStore

end RefCheck.Script
