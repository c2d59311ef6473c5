import RefCheck.Script.Tree

/-!
# Nodes and their layout

The nodes of all scripts stand in one row and refer to each other by position. A reference may be
missing, and may lead nowhere. A tree is laid out with children before their parent, left to right,
but a name comes before its initializer. `layout` says what the row is; `plan` makes it in one pass,
and `plan_eq` says that they agree.
-/

namespace RefCheck.Script

open RefCheck.Text

abbrev NodeId := Nat

abbrev InputId := Nat

/-- A node as it is stored. Only scripts carry an input. -/
structure Node where
  kind : NodeKind
  text : String
  span : Span
  parent : Option NodeId
  children : List (Option NodeId)
  input : Option InputId
deriving DecidableEq, Repr, Inhabited

namespace Node

def leaf (kind : NodeKind) (text : String) (span : Span) (input : Option InputId) : Node :=
  ⟨kind, text, span, none, [], input⟩

def firstChild (node : Node) : Option NodeId := node.children.head?.join

end Node

namespace Tree

/-- A name precedes what hangs below it; every other node follows it. -/
def leads (tree : Tree) : Bool := tree.kind = .name

/-- The place of a tree's root among the nodes of the tree. -/
def rootOffset (tree : Tree) : Nat := if tree.leads then 0 else tree.size - 1

/-- The ids of the roots of trees that are laid out one after the other. -/
def rootIds (base : NodeId) : List Tree → List NodeId
  | [] => []
  | tree :: rest => (base + tree.rootOffset) :: rootIds (base + tree.size) rest

mutual

/-- The nodes of a tree in the order in which they are stored, from the id `base` on. -/
def layout (base : NodeId) (parent : Option NodeId) (input : Option InputId) : Tree → List Node
  | node kind text span children =>
    if kind = .name then
      ⟨kind, text, span, parent, (rootIds (base + 1) children).map some, input⟩ ::
        forestLayout (base + 1) (some base) children
    else
      forestLayout base (some (base + forestSize children)) children ++
        [⟨kind, text, span, parent, (rootIds base children).map some, input⟩]

/-- The nodes of trees one after the other, all below the same parent. -/
def forestLayout (base : NodeId) (parent : Option NodeId) : List Tree → List Node
  | [] => []
  | tree :: rest =>
    tree.layout base parent none ++ forestLayout (base + tree.size) parent rest

end

end Tree

/-- What is known of a tree before its parent is: its size, the id of its root, and its nodes, put
in front of others. -/
structure Plan where
  size : Nat
  root : NodeId
  nodes : Option NodeId → Option InputId → List Node → List Node

/-- The same for several trees below one parent. -/
structure ForestPlan where
  size : Nat
  roots : List NodeId
  nodes : Option NodeId → List Node → List Node

namespace Tree

mutual

/-- Plans a tree whose nodes have ids from `base` on. -/
def plan (base : NodeId) : Tree → Plan
  | node kind text span children =>
    if kind = .name then
      let below := forestPlan (base + 1) children
      { size := below.size + 1
        root := base
        nodes := fun parent input after =>
          ⟨kind, text, span, parent, below.roots.map some, input⟩ ::
            below.nodes (some base) after }
    else
      let below := forestPlan base children
      { size := below.size + 1
        root := base + below.size
        nodes := fun parent input after =>
          below.nodes (some (base + below.size))
            (⟨kind, text, span, parent, below.roots.map some, input⟩ :: after) }

def forestPlan (base : NodeId) : List Tree → ForestPlan
  | [] => ⟨0, [], fun _ after => after⟩
  | tree :: rest =>
    let first := tree.plan base
    let more := forestPlan (base + first.size) rest
    { size := first.size + more.size
      roots := first.root :: more.roots
      nodes := fun parent after => first.nodes parent none (more.nodes parent after) }

end

mutual

/-- A plan is carried out to the layout of the tree. -/
theorem plan_eq (base : NodeId) (tree : Tree) :
    tree.plan base = ⟨tree.size, base + tree.rootOffset,
      fun parent input after => tree.layout base parent input ++ after⟩ := by
  cases tree with
  | node kind text span children =>
    by_cases h : kind = .name
    · simp [plan, layout, rootOffset, leads, Tree.kind, h, forestPlan_eq]
    · simp [plan, layout, rootOffset, leads, Tree.kind, h, forestPlan_eq]

theorem forestPlan_eq (base : NodeId) (trees : List Tree) :
    forestPlan base trees = ⟨forestSize trees, rootIds base trees,
      fun parent after => forestLayout base parent trees ++ after⟩ := by
  cases trees with
  | nil => simp [forestPlan, forestSize, rootIds, forestLayout]
  | cons tree rest =>
    simp [forestPlan, forestSize, rootIds, forestLayout, plan_eq base tree,
      forestPlan_eq (base + tree.size) rest]

end

end Tree

end RefCheck.Script
