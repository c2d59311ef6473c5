import Mathlib.Data.List.Induction
import Mathlib.Data.List.Nodup
import RefCheck.Proofs.Script.Growth

/-!
# Child lists and parent links

A store says twice where a node stands: in the child list of the node above it and in its own parent
link. In a linked store the two agree, so a node is reached from nodes without a parent in one way
at most (`Linked.follow_inj`). Whatever is laid out at the end of a linked store, loose or below a
node, leaves it linked.
-/

namespace RefCheck.Script

/-- Trees that are laid out one after the other do not overlap. -/
theorem pairwise_spread (base : Nat) (trees : List Tree) :
    (Planted.spread base trees).Pairwise fun c d => c.base + c.tree.size ≤ d.base := by
  induction trees generalizing base with
  | nil => exact List.Pairwise.nil
  | cons t rest ih => exact List.pairwise_cons.mpr ⟨fun d hd => (spread_within hd).1, ih _⟩

/-- Together they take all places from the first to the last one. -/
theorem exists_mem_spread {base id : Nat} {trees : List Tree} (hle : base ≤ id)
    (hlt : id < base + Tree.forestSize trees) :
    ∃ c ∈ Planted.spread base trees, c.base ≤ id ∧ id < c.base + c.tree.size := by
  induction trees generalizing base with
  | nil =>
    rw [Tree.forestSize] at hlt
    omega
  | cons t rest ih =>
    rw [Tree.forestSize] at hlt
    by_cases h : id < base + t.size
    · exact ⟨⟨base, t⟩, List.mem_cons_self, hle, h⟩
    · obtain ⟨c, hc, hin⟩ := ih (Nat.le_of_not_lt h) (by omega)
      exact ⟨c, List.mem_cons_of_mem _ hc, hin⟩

theorem Planted.root_mem (p : Planted) : p.base ≤ p.root ∧ p.root < p.base + p.tree.size := by
  have := rootOffset_lt p.tree
  simp only [Planted.root]
  omega

theorem nodup_roots (p : Planted) : (p.children.map fun c => some c.root).Nodup := by
  refine List.pairwise_map.mpr ((pairwise_spread p.below p.tree.children).imp ?_)
  intro c d hcd heq
  have hc := c.root_mem
  have hd := d.root_mem
  have : c.root = d.root := Option.some.inj heq
  omega

/-- A place in a tree is that of its root or in one of the trees below it. -/
theorem eq_root_or_below {p : Planted} {id : Nat} (hle : p.base ≤ id)
    (hlt : id < p.base + p.tree.size) :
    id = p.root ∨ ∃ c ∈ p.children, c.base ≤ id ∧ id < c.base + c.tree.size := by
  have hsize := Tree.size_eq p.tree
  by_cases hroot : id = p.root
  · exact .inl hroot
  · right
    apply exists_mem_spread
    all_goals
      simp only [Planted.root, Tree.rootOffset] at hroot
      simp only [Planted.below]
      split at hroot <;> simp only [*, if_true, if_false, Bool.false_eq_true] <;> omega

namespace NodeStore

variable {s t : NodeStore} {id : Nat} {node : Node} {p : Planted} {parent : Option NodeId}

/-- What a node lists: each child is there, has the node for its parent, and is listed once. -/
structure LinkedAt (s : NodeStore) (id : Nat) (node : Node) : Prop where
  child : ∀ child ∈ node.children, ∃ below, s.get? child = some below ∧ below.parent = some id
  once : node.children.Nodup

/-- Child lists and parent links agree throughout. -/
def Linked (s : NodeStore) : Prop := ∀ (id : Nat) node, s.get? (some id) = some node →
  s.LinkedAt id node

theorem lt_of_get? (h : s.get? (some id) = some node) : id < s.size :=
  (Array.getElem?_eq_some_iff.mp h).1

/-- The nodes that are laid out for a tree agree. -/
theorem linkedAt_layout {input : Option InputId}
    (h : s.Holds p.base (p.tree.layout p.base parent input)) (hle : p.base ≤ id)
    (hlt : id < p.base + p.tree.size) (hnode : s.get? (some id) = some node) :
    s.LinkedAt id node := by
  obtain ⟨base, tree⟩ := p
  induction tree generalizing base parent input with
  | node kind text span children ih =>
    obtain ⟨hroot, hbelow⟩ := holds_layout.mp h
    have hchildren := holds_spread.mp hbelow
    rcases eq_root_or_below hle hlt with rfl | ⟨c, hc, hin, hout⟩
    · obtain rfl := Option.some.inj (hnode.symm.trans hroot)
      refine ⟨?_, nodup_roots _⟩
      intro child hchild
      obtain ⟨c, hc, rfl⟩ := List.mem_map.mp hchild
      exact ⟨_, (holds_layout.mp (hchildren c hc)).1, rfl⟩
    · exact ih c.tree (spread_tree hc) c.base (hchildren c hc) hin hout

theorem linkedAt_forest {base : Nat} {trees : List Tree}
    (h : s.Holds base (Tree.forestLayout base parent trees)) (hle : base ≤ id)
    (hlt : id < base + Tree.forestSize trees) (hnode : s.get? (some id) = some node) :
    s.LinkedAt id node := by
  obtain ⟨c, hc, hin, hout⟩ := exists_mem_spread hle hlt
  exact linkedAt_layout (holds_spread.mp h c hc) hin hout hnode

/-- Loose nodes at the end change no other node. -/
theorem get?_append (nodes : List Node) (h : s.get? (some id) = some node) :
    NodeStore.get? ⟨s.nodes ++ nodes.toArray⟩ (some id) = some node :=
  (Array.getElem?_append_left (lt_of_get? h)).trans h

theorem holds_append_self (nodes : List Node) :
    NodeStore.Holds ⟨s.nodes ++ nodes.toArray⟩ s.size nodes := by
  intro k node h
  have hle : s.nodes.size ≤ s.size + k := Nat.le_add_right _ _
  rw [Array.getElem?_append_right hle, List.getElem?_toArray, ← h]
  exact congrArg (nodes[·]?) (Nat.add_sub_cancel_left _ _)

theorem strew_eq (s : NodeStore) (trees : List Tree) :
    s.strew trees = ⟨s.nodes ++ (Tree.forestLayout s.size none trees).toArray⟩ :=
  congrArg NodeStore.mk (strew_nodes s trees)

theorem get?_strew (trees : List Tree) (h : s.get? (some id) = some node) :
    (s.strew trees).get? (some id) = some node := by
  rw [strew_eq]
  exact get?_append _ h

theorem Linked.strew (h : s.Linked) (trees : List Tree) : (s.strew trees).Linked := by
  rw [strew_eq]
  intro id node hnode
  by_cases hlt : id < s.size
  · have hold : s.get? (some id) = some node := by
      rw [← hnode]
      exact (Array.getElem?_append_left hlt).symm
    refine ⟨?_, (h id node hold).once⟩
    intro child hchild
    obtain ⟨below, hbelow, hparent⟩ := (h id node hold).child child hchild
    cases child with
    | none => cases hbelow
    | some c => exact ⟨below, get?_append _ hbelow, hparent⟩
  · have hend := lt_of_get? hnode
    have hsize : NodeStore.size ⟨s.nodes ++ (Tree.forestLayout s.size none trees).toArray⟩ =
        s.size + Tree.forestSize trees := by
      simp [NodeStore.size]
    exact linkedAt_forest (holds_append_self _) (Nat.le_of_not_lt hlt) (hsize ▸ hend) hnode

section Hang

variable {above : Nat} {input : Option InputId} {tree : Tree}

theorem size_hang {nodes : List Node} {child : Nat} :
    (s.hang nodes above child).size = s.size + nodes.length := by
  simp [NodeStore.size, hang, modify]

/-- Nodes that were there keep the node above. -/
theorem exists_hang {nodes : List Node} {child : Nat} (h : s.get? (some id) = some node) :
    ∃ new, (s.hang nodes above child).get? (some id) = some new ∧ new.parent = node.parent := by
  by_cases hid : id = above
  · subst hid
    exact ⟨_, get?_hang_parent h, rfl⟩
  · exact ⟨node, get?_hang_of_ne hid h, rfl⟩

/-- And those below them. -/
theorem Linked.exists_child_hang {nodes : List Node} {last : Nat} (h : s.Linked)
    (hnode : s.get? (some id) = some node) {child : Option NodeId} (hchild : child ∈ node.children) :
    ∃ below, (s.hang nodes above last).get? child = some below ∧ below.parent = some id := by
  obtain ⟨below, hbelow, hparent⟩ := (h id node hnode).child child hchild
  cases child with
  | none => cases hbelow
  | some c =>
    obtain ⟨new, hnew, hsame⟩ := exists_hang hbelow
    exact ⟨new, hnew, hsame.trans hparent⟩

/-- A tree at the end and below a node leaves a store linked. -/
theorem Linked.hang (h : s.Linked) (habove : above < s.size) :
    (s.hang (tree.layout s.size (some above) input) above (s.nextRoot tree)).Linked := by
  let p : Planted := ⟨s.size, tree⟩
  let t := s.hang (tree.layout s.size (some above) input) above p.root
  have hholds : t.Holds s.size (tree.layout s.size (some above) input) := holds_hang habove
  have hroot : t.get? (some p.root) = some (p.record (some above) input) :=
    (holds_layout (p := p).mp hholds).1
  change t.Linked
  intro id node hnode
  by_cases hlt : id < s.size
  · have hold : s.get? (some id) = some s.nodes[id] := Array.getElem?_eq_getElem hlt
    by_cases hid : id = above
    · subst hid
      rw [get?_hang_parent hold] at hnode
      obtain rfl := Option.some.inj hnode
      constructor
      · intro child hmem
        rcases List.mem_append.mp hmem with hmem | hmem
        · exact h.exists_child_hang hold hmem
        · rw [List.mem_singleton.mp hmem]
          exact ⟨_, hroot, rfl⟩
      · refine List.nodup_append.mpr ⟨(h id _ hold).once, List.nodup_singleton _, ?_⟩
        rintro child hmem _ hlast rfl
        rw [List.mem_singleton.mp hlast] at hmem
        obtain ⟨below, hbelow, -⟩ := (h id _ hold).child _ hmem
        have hlow : s.size ≤ p.root := p.root_mem.1
        exact absurd (lt_of_get? hbelow) (Nat.not_lt_of_le hlow)
    · rw [get?_hang_of_ne hid hold] at hnode
      obtain rfl := Option.some.inj hnode
      exact ⟨fun _ hchild => h.exists_child_hang hold hchild, (h id _ hold).once⟩
  · have hend := lt_of_get? hnode
    have hsize : t.size = s.size + tree.size := by
      rw [size_hang, length_layout]
    exact linkedAt_layout (p := p) hholds (Nat.le_of_not_lt hlt) (hsize ▸ hend) hnode

end Hang

/-- Where a way down leads, if each step says which child is next. -/
def follow (s : NodeStore) (id : Option NodeId) : List Nat → Option NodeId
  | [] => id
  | step :: rest => s.follow ((s.children id)[step]?.join) rest

theorem follow_none (path : List Nat) : s.follow none path = none := by
  induction path with
  | nil => rfl
  | cons step rest ih => exact ih

theorem follow_concat (s : NodeStore) (id : Option NodeId) (path : List Nat) (step : Nat) :
    s.follow id (path ++ [step]) = (s.children (s.follow id path))[step]?.join := by
  induction path generalizing id with
  | nil => rfl
  | cons first rest ih => exact ih _

theorem mem_children_of_step {id : Option NodeId} {step n : Nat}
    (h : (s.children id)[step]?.join = some n) :
    ∃ above node, id = some above ∧ s.get? id = some node ∧
      node.children[step]? = some (some n) := by
  cases id with
  | none => simp [children, NodeStore.get?] at h
  | some above =>
    cases hnode : s.get? (some above) with
    | none => simp [children, hnode] at h
    | some node =>
      rw [children, hnode] at h
      exact ⟨above, node, rfl, rfl, Option.join_eq_some_iff.mp h⟩

namespace Linked

/-- The parent of a node is the one that lists it. -/
theorem parent_of_mem (h : s.Linked) {above : Option NodeId} {n : Nat}
    (hmem : some n ∈ s.children above) : s.parent (some n) = above := by
  obtain ⟨step, hstep⟩ := List.mem_iff_getElem?.mp hmem
  have hjoin : (s.children above)[step]?.join = some n := by
    rw [hstep]
    rfl
  obtain ⟨a, node, rfl, hnode, hlisted⟩ := mem_children_of_step hjoin
  obtain ⟨below, hbelow, hparent⟩ := (h a node hnode).child _ (List.mem_of_getElem? hlisted)
  rw [NodeStore.parent, hbelow]
  exact hparent

theorem parent_of_step (h : s.Linked) {root : Option NodeId} {path : List Nat} {step n : Nat}
    (hn : s.follow root (path ++ [step]) = some n) :
    s.parent (some n) = s.follow root path ∧ (s.follow root path).isSome := by
  rw [follow_concat] at hn
  obtain ⟨above, node, habove, hnode, hlisted⟩ := mem_children_of_step hn
  have hmem : some n ∈ s.children (s.follow root path) := by
    rw [children, hnode]
    exact List.mem_of_getElem? hlisted
  exact ⟨h.parent_of_mem hmem, by rw [habove]; rfl⟩

/-- Nothing leads from a node that was there to nodes that were strewn. -/
theorem follow_strew (h : s.Linked) {trees : List Tree} {root n : Nat} {path : List Nat}
    (hroot : root < s.size) (hn : (s.strew trees).follow (some root) path = some n) :
    n < s.size := by
  induction path using List.reverseRecOn generalizing n with
  | nil => exact Option.some.inj hn ▸ hroot
  | append_singleton front step ih =>
    rw [follow_concat] at hn
    obtain ⟨above, node, habove, hnode, hlisted⟩ := mem_children_of_step hn
    have hlt : above < s.nodes.size := ih habove
    have hold : s.get? (some above) = some s.nodes[above] := Array.getElem?_eq_getElem hlt
    rw [habove, get?_strew trees hold] at hnode
    obtain rfl := Option.some.inj hnode
    obtain ⟨below, hbelow, -⟩ := (h above _ hold).child _ (List.mem_of_getElem? hlisted)
    exact lt_of_get? hbelow

/-- From nodes without a parent, a node is reached in one way only. -/
theorem follow_inj (h : s.Linked) {root root' n : Nat} {path path' : List Nat}
    (hroot : s.parent (some root) = none) (hroot' : s.parent (some root') = none)
    (hpath : s.follow (some root) path = some n) (hpath' : s.follow (some root') path' = some n) :
    root = root' ∧ path = path' := by
  -- Both ways come to the node from its parent, so they agree from their ends on.
  induction path using List.reverseRecOn generalizing n path' with
  | nil =>
    rcases List.eq_nil_or_concat path' with rfl | ⟨front, step, rfl⟩
    · exact ⟨Option.some.inj (hpath.trans hpath'.symm), rfl⟩
    · obtain ⟨hparent, hsome⟩ := h.parent_of_step (by rwa [List.concat_eq_append] at hpath')
      obtain rfl := Option.some.inj hpath
      rw [← hparent, hroot] at hsome
      cases hsome
  | append_singleton front step ih =>
    obtain ⟨hparent, hsome⟩ := h.parent_of_step hpath
    rcases List.eq_nil_or_concat path' with rfl | ⟨front', step', rfl⟩
    · obtain rfl := Option.some.inj hpath'
      rw [← hparent, hroot'] at hsome
      cases hsome
    · rw [List.concat_eq_append] at hpath'
      obtain ⟨hparent', -⟩ := h.parent_of_step hpath'
      obtain ⟨above, habove⟩ := Option.isSome_iff_exists.mp hsome
      have hsame : s.follow (some root') front' = some above := by
        rw [← hparent', hparent, habove]
      obtain ⟨rfl, rfl⟩ := ih habove hsame
      rw [follow_concat] at hpath hpath'
      obtain ⟨a, node, ha, hnode, hstep⟩ := mem_children_of_step hpath
      obtain ⟨-, node', -, hnode', hstep'⟩ := mem_children_of_step hpath'
      obtain rfl : node = node' := Option.some.inj (hnode.symm.trans hnode')
      rw [ha] at hnode
      have hlt := (List.getElem?_eq_some_iff.mp hstep).1
      have heq := (List.getElem?_inj hlt (h a node hnode).once).mp (hstep.trans hstep'.symm)
      exact ⟨rfl, by rw [heq, List.concat_eq_append]⟩

end Linked

/-- Going up from a node comes to an end: at a script, with the script's input, or outside all
scripts. -/
inductive Ascends (s : NodeStore) : Option NodeId → Option InputId → Prop
  | outside {id : Option NodeId} : s.get? id = none → Ascends s id none
  | script {id : Option NodeId} {node : Node} : s.get? id = some node → node.kind = .script →
      Ascends s id node.input
  | up {id : Option NodeId} {node : Node} {input : Option InputId} : s.get? id = some node →
      node.kind ≠ .script → Ascends s node.parent input → Ascends s id input

/-- If an input is found within some steps, then going up ends there. -/
theorem ascends_of_inputWithin {steps : Nat} {id : Option NodeId} {input : InputId}
    (h : s.inputWithin steps id = some input) : s.Ascends id (some input) := by
  induction steps generalizing id with
  | zero => cases h
  | succ steps ih =>
    rw [NodeStore.inputWithin] at h
    cases hnode : s.get? id with
    | none =>
      rw [hnode] at h
      cases h
    | some node =>
      simp only [hnode] at h
      by_cases hkind : node.kind = .script
      · rw [if_pos hkind] at h
        exact h ▸ .script hnode hkind
      · rw [if_neg hkind] at h
        exact .up hnode hkind (ih h)

end NodeStore

end RefCheck.Script
