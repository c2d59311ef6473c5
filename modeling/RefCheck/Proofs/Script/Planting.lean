import RefCheck.Script.NodeStore
import RefCheck.Proofs.Script.Shape

/-!
# Trees in the store

A store shows a planted tree if the nodes of its layout stand there. What is planted later, and what
is hung below a script or a root, leaves the trees inside scripts as they are.
-/

namespace RefCheck.Script

open RefCheck.Text

/-- A tree with the id from which its nodes are laid out. -/
structure Planted where
  base : Nat
  tree : Tree
deriving Inhabited

namespace Planted

/-- Trees that are laid out one after the other. -/
def spread (base : Nat) : List Tree → List Planted
  | [] => []
  | tree :: rest => ⟨base, tree⟩ :: spread (base + tree.size) rest

def root (p : Planted) : Nat := p.base + p.tree.rootOffset

/-- Where the trees below the root begin. -/
def below (p : Planted) : Nat := if p.tree.leads then p.base + 1 else p.base

def children (p : Planted) : List Planted := spread p.below p.tree.children

/-- The node at the root. -/
def record (p : Planted) (parent : Option NodeId) (input : Option InputId) : Node :=
  ⟨p.tree.kind, p.tree.text, p.tree.span, parent, p.children.map fun c => some c.root, input⟩

end Planted

/-- There is no script and no root in the tree, and every function has a name, parameters and a
body. -/
inductive Tree.Inner : Tree → Prop
  | node {kind text span children} : kind ≠ .script → kind ≠ .root →
      (kind = .function → ∃ name params body, children = [name, params, body]) →
      (∀ t ∈ children, Inner t) → Inner (.node kind text span children)

theorem Tree.Inner.kind_ne {t : Tree} (h : t.Inner) : t.kind ≠ .script ∧ t.kind ≠ .root := by
  cases h with
  | node hscript hroot _ => exact ⟨hscript, hroot⟩

theorem Tree.Inner.children {t : Tree} (h : t.Inner) : ∀ c ∈ t.children, c.Inner := by
  cases h with
  | node _ _ _ hchildren => exact hchildren

theorem Tree.Inner.parts {t : Tree} (h : t.Inner) (hkind : t.kind = .function) :
    ∃ name params body, t.children = [name, params, body] := by
  cases h with
  | node _ _ hparts _ => exact hparts hkind

theorem inner_of_fits {n : Nat} {role : Role} {t : Tree} (h : Fits n role t) : t.Inner := by
  have hjump : ∀ {kind : NodeKind} {span : Span} {children : List Tree}, kind.isJump →
      (∀ t ∈ children, t.Inner) → (Tree.node kind "" span children).Inner := by
    intro kind span children hkind hchildren
    cases kind <;> cases hkind <;> exact .node (by decide) (by decide) nofun hchildren
  induction h with
  | plainBranch _ ih | blockStatement _ ih | functionStatement _ ih | name _ ih
  | functionValue _ ih | parentheses _ ih | members _ ih | firstOperand _ ih | operand _ ih
  | expression _ ih => exact ih
  | jump h => exact hjump h nofun
  | jumpTo h _ ih => exact hjump h (List.forall_mem_singleton.mpr ih)
  | @literal _ kind _ _ h =>
    cases kind <;> cases h <;> exact .node (by decide) (by decide) nofun nofun
  | function _ _ _ hname hparams hbody =>
    exact .node (by decide) (by decide) (fun _ => ⟨_, _, _, rfl⟩) (by simp [hname, hparams, hbody])
  | _ => exact .node (by decide) (by decide) nofun (by simp_all)

section Layout

variable {base : Nat} {parent : Option NodeId} {input : Option InputId} {trees : List Tree}

theorem rootIds_eq : Tree.rootIds base trees = (Planted.spread base trees).map Planted.root := by
  induction trees generalizing base with
  | nil => rfl
  | cons tree rest ih =>
    rw [Tree.rootIds, ih]
    rfl

theorem map_tree_spread (base : Nat) (trees : List Tree) :
    (Planted.spread base trees).map Planted.tree = trees := by
  induction trees generalizing base with
  | nil => rfl
  | cons t rest ih => rw [Planted.spread, List.map_cons, ih]

theorem rootOffset_lt (t : Tree) : t.rootOffset < t.size := by
  have := t.size_pos
  rw [Tree.rootOffset]
  split <;> omega

mutual

@[simp] theorem length_layout (base : Nat) (parent : Option NodeId) (input : Option InputId)
    (t : Tree) : (t.layout base parent input).length = t.size := by
  cases t with
  | node kind text span children =>
    by_cases h : kind = .name <;> simp [Tree.layout, h, length_forestLayout]

@[simp] theorem length_forestLayout (base : Nat) (parent : Option NodeId) (trees : List Tree) :
    (Tree.forestLayout base parent trees).length = Tree.forestSize trees := by
  cases trees with
  | nil => simp [Tree.forestLayout, Tree.forestSize]
  | cons t rest =>
    simp [Tree.forestLayout, Tree.forestSize, length_layout, length_forestLayout]

end

theorem spread_within {c : Planted} (h : c ∈ Planted.spread base trees) :
    base ≤ c.base ∧ c.base + c.tree.size ≤ base + Tree.forestSize trees := by
  induction trees generalizing base with
  | nil => simp [Planted.spread] at h
  | cons t rest ih =>
    rw [Tree.forestSize]
    rcases List.mem_cons.mp h with rfl | h
    · dsimp only
      omega
    · have := ih h
      omega

theorem spread_tree {c : Planted} (h : c ∈ Planted.spread base trees) : c.tree ∈ trees := by
  induction trees generalizing base with
  | nil => simp [Planted.spread] at h
  | cons t rest ih =>
    rcases List.mem_cons.mp h with rfl | h
    · exact List.mem_cons_self
    · exact List.mem_cons_of_mem t (ih h)

end Layout

theorem Tree.size_eq (t : Tree) : t.size = Tree.forestSize t.children + 1 := by
  cases t
  rw [Tree.size_node]
  rfl

theorem size_child_lt {p c : Planted} (h : c ∈ p.children) : c.tree.size < p.tree.size := by
  have hwithin := spread_within h
  have hsize := Tree.size_eq p.tree
  omega

namespace NodeStore

variable {s s' : NodeStore} {base : Nat} {parent : Option NodeId} {p c : Planted}

/-- The nodes stand in the store one after the other, from the id `base` on. -/
def Holds (s : NodeStore) (base : Nat) (nodes : List Node) : Prop :=
  ∀ k node, nodes[k]? = some node → s.nodes[base + k]? = some node

theorem holds_append {xs ys : List Node} :
    s.Holds base (xs ++ ys) ↔ s.Holds base xs ∧ s.Holds (base + xs.length) ys := by
  constructor
  · intro h
    refine ⟨fun k node hk => h k node ?_, fun k node hk => ?_⟩
    · rw [List.getElem?_append_left (List.getElem?_eq_some_iff.mp hk).1, hk]
    · rw [Nat.add_assoc]
      refine h (xs.length + k) node ?_
      rw [List.getElem?_append_right (Nat.le_add_right _ _), Nat.add_sub_cancel_left, hk]
  · rintro ⟨hxs, hys⟩ k node hk
    by_cases hlt : k < xs.length
    · exact hxs k node (by rwa [List.getElem?_append_left hlt] at hk)
    · rw [List.getElem?_append_right (by omega)] at hk
      have := hys _ node hk
      rwa [show base + xs.length + (k - xs.length) = base + k by omega] at this

theorem holds_singleton {node : Node} : s.Holds base [node] ↔ s.nodes[base]? = some node := by
  constructor
  · exact fun h => h 0 node rfl
  · intro h k other hk
    obtain ⟨hlt, rfl⟩ := List.getElem?_eq_some_iff.mp hk
    obtain rfl : k = 0 := by simpa using hlt
    exact h

/-- A tree inside a script stands in the store below a parent. -/
structure Shows (s : NodeStore) (parent : Option NodeId) (p : Planted) : Prop where
  nodes : s.Holds p.base (p.tree.layout p.base parent none)
  inner : p.tree.Inner

theorem holds_spread {trees : List Tree} :
    s.Holds base (Tree.forestLayout base parent trees) ↔
      ∀ c ∈ Planted.spread base trees, s.Holds c.base (c.tree.layout c.base parent none) := by
  induction trees generalizing base with
  | nil => simp [Planted.spread, Tree.forestLayout, Holds]
  | cons t rest ih =>
    simp only [Planted.spread, List.forall_mem_cons, Tree.forestLayout, holds_append,
      length_layout, ih]

theorem shows_spread {trees : List Tree} :
    s.Holds base (Tree.forestLayout base parent trees) ∧ (∀ t ∈ trees, t.Inner) ↔
      ∀ c ∈ Planted.spread base trees, s.Shows parent c := by
  constructor
  · rintro ⟨hholds, hinner⟩ c hc
    exact ⟨holds_spread.mp hholds c hc, hinner _ (spread_tree hc)⟩
  · intro h
    refine ⟨holds_spread.mpr fun c hc => (h c hc).nodes, fun t ht => ?_⟩
    rw [← map_tree_spread base trees] at ht
    obtain ⟨c, hc, rfl⟩ := List.mem_map.mp ht
    exact (h c hc).inner

/-- What stands in the store for a tree is its root's node and the trees below. -/
theorem holds_layout {input : Option InputId} :
    s.Holds p.base (p.tree.layout p.base parent input) ↔
      s.nodes[p.root]? = some (p.record parent input) ∧
        s.Holds p.below (Tree.forestLayout p.below (some p.root) p.tree.children) := by
  obtain ⟨base, kind, text, span, children⟩ := p
  by_cases h : kind = .name
  · have hroot : Planted.root ⟨base, .node kind text span children⟩ = base := by
      simp [Planted.root, Tree.rootOffset, Tree.leads, Tree.kind, h]
    have hbelow : Planted.below ⟨base, .node kind text span children⟩ = base + 1 := by
      simp [Planted.below, Tree.leads, Tree.kind, h]
    rw [hroot, hbelow, Tree.layout, if_pos h, ← List.singleton_append, holds_append,
      holds_singleton, List.length_singleton, Planted.record, Planted.children, hbelow, rootIds_eq]
    simp [Tree.kind, Tree.text, Tree.span, Tree.children, Function.comp_def]
  · have hroot : Planted.root ⟨base, .node kind text span children⟩ =
        base + Tree.forestSize children := by
      simp [Planted.root, Tree.rootOffset, Tree.leads, Tree.kind, h]
    have hbelow : Planted.below ⟨base, .node kind text span children⟩ = base := by
      simp [Planted.below, Tree.leads, Tree.kind, h]
    rw [hroot, hbelow, Tree.layout, if_neg h, holds_append, holds_singleton, length_forestLayout,
      Planted.record, Planted.children, hbelow, rootIds_eq, and_comm]
    simp [Tree.kind, Tree.text, Tree.span, Tree.children, Function.comp_def]

theorem Shows.get? (h : s.Shows parent p) :
    s.get? (some p.root) = some (p.record parent none) := (holds_layout.mp h.nodes).1

theorem Shows.child (h : s.Shows parent p) (hc : c ∈ p.children) : s.Shows (some p.root) c := by
  exact shows_spread.mp ⟨(holds_layout.mp h.nodes).2, h.inner.children⟩ c hc

theorem Shows.size_le (h : s.Shows parent p) : p.base + p.tree.size ≤ s.size := by
  have hlast : p.tree.size - 1 < (p.tree.layout p.base parent none).length := by
    rw [length_layout]
    exact Nat.sub_lt p.tree.size_pos Nat.one_pos
  have hlt := (Array.getElem?_eq_some_iff.mp (h.nodes _ _ (List.getElem?_eq_getElem hlast))).1
  have := p.tree.size_pos
  rw [size]
  omega

theorem Shows.kind_eq (h : s.Shows parent p) : s.kind? (some p.root) = some p.tree.kind := by
  rw [NodeStore.kind?, h.get?]
  rfl

theorem Shows.text_eq (h : s.Shows parent p) : s.text (some p.root) = p.tree.text := by
  rw [NodeStore.text, h.get?]
  rfl

theorem Shows.span_eq (h : s.Shows parent p) : s.span (some p.root) = p.tree.span := by
  rw [NodeStore.span, h.get?]
  rfl

theorem Shows.parent_eq (h : s.Shows parent p) : s.parent (some p.root) = parent := by
  rw [NodeStore.parent, h.get?]
  rfl

theorem Shows.children_eq (h : s.Shows parent p) :
    s.children (some p.root) = p.children.map fun c => some c.root := by
  rw [NodeStore.children, h.get?]
  rfl

end NodeStore

/-- A script with the root above it, its input and its statements, which need not stand next to each
other. -/
structure Plot where
  above : NodeId
  input : InputId
  root : Nat
  span : Span
  body : List Planted

/-- The node of a script. -/
def Plot.record (plot : Plot) : Node :=
  ⟨.script, "", plot.span, some plot.above, plot.body.map fun c => some c.root, some plot.input⟩

/-- A script stands in the store. -/
structure NodeStore.ShowsScript (s : NodeStore) (plot : Plot) : Prop where
  node : s.get? (some plot.root) = some plot.record
  body : ∀ c ∈ plot.body, s.Shows (some plot.root) c

namespace NodeStore

variable {s : NodeStore} {plot : Plot}

theorem ShowsScript.kind_eq (h : s.ShowsScript plot) :
    s.kind? (some plot.root) = some .script := by
  rw [NodeStore.kind?, h.node]
  rfl

theorem ShowsScript.children_eq (h : s.ShowsScript plot) :
    s.children (some plot.root) = plot.body.map fun c => some c.root := by
  rw [NodeStore.children, h.node]
  rfl

end NodeStore

end RefCheck.Script
