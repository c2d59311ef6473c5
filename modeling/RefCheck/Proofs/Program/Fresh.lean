import RefCheck.Proofs.Script.Postorder

/-!
# A parsed source is one fresh tree

Parsing a source adds nodes behind those that were there and changes none of them, whether the
source can be read or not. If it can, the added nodes are one tree: the script comes last, each
other node is listed once, by the node that is its parent, and all are reached from the script
(`parseInto_fresh`).
-/

namespace RefCheck.Script

open RefCheck.Text

namespace Planted

variable {p c d : Planted} {id : Nat}

/-- The trees at and below the root of a tree, each where it is planted. -/
inductive Part (p : Planted) : Planted → Prop
  | whole : Part p p
  | inside {d c : Planted} : Part p d → c ∈ d.children → Part p c

theorem child_within (hc : c ∈ d.children) :
    d.base ≤ c.base ∧ c.base + c.tree.size ≤ d.base + d.tree.size := by
  have hwithin := spread_within hc
  have hsize := Tree.size_eq d.tree
  by_cases hleads : d.tree.leads
  · rw [Planted.below, if_pos hleads] at hwithin
    omega
  · rw [Planted.below, if_neg hleads] at hwithin
    omega

theorem Part.within (h : p.Part c) :
    p.base ≤ c.base ∧ c.base + c.tree.size ≤ p.base + p.tree.size := by
  induction h with
  | whole => exact ⟨Nat.le_refl _, Nat.le_refl _⟩
  | inside _ hc ih =>
    have := child_within hc
    omega

theorem Part.of_child (hc : c ∈ p.children) (h : c.Part d) : p.Part d := by
  induction h with
  | whole => exact .inside .whole hc
  | inside _ hd ih => exact .inside ih hd

/-- At each place of a tree is the root of one of its parts. -/
theorem exists_part (hle : p.base ≤ id) (hlt : id < p.base + p.tree.size) :
    ∃ c, p.Part c ∧ c.root = id := by
  obtain ⟨base, tree⟩ := p
  induction tree generalizing base with
  | node kind text span children ih =>
    rcases eq_root_or_below hle hlt with rfl | ⟨c, hc, hin, hout⟩
    · exact ⟨_, .whole, rfl⟩
    · obtain ⟨d, hd, hid⟩ := ih c.tree (spread_tree hc) c.base hin hout
      exact ⟨d, .of_child hc hd, hid⟩

theorem Part.inner (h : p.Part d) (hp : ∀ t ∈ p.tree.children, t.Inner) (hc : c ∈ d.children) :
    c.tree.Inner := by
  induction h generalizing c with
  | whole => exact hp _ (spread_tree hc)
  | inside _ hd ih => exact (ih hd).children _ (spread_tree hc)

end Planted

namespace NodeStore

variable {s : NodeStore} {p c d : Planted} {parent : Option NodeId} {input : Option InputId}

theorem holds_part (h : s.Holds p.base (p.tree.layout p.base parent input)) (hd : p.Part d) :
    ∃ parent input, s.Holds d.base (d.tree.layout d.base parent input) := by
  induction hd with
  | whole => exact ⟨parent, input, h⟩
  | @inside d c _ hc ih =>
    obtain ⟨_, _, hd⟩ := ih
    exact ⟨some d.root, none, holds_spread.mp (holds_layout.mp hd).2 c hc⟩

theorem get?_part (h : s.Holds p.base (p.tree.layout p.base parent input)) (hd : p.Part d) :
    ∃ parent input, s.get? (some d.root) = some (d.record parent input) := by
  obtain ⟨parent, input, hd⟩ := holds_part h hd
  exact ⟨parent, input, (holds_layout.mp hd).1⟩

/-- Below the root, a node has the one above it for its parent, and no input. -/
theorem get?_below (h : s.Holds p.base (p.tree.layout p.base parent input)) (hd : p.Part d)
    (hc : c ∈ d.children) : s.get? (some c.root) = some (c.record (some d.root) none) := by
  obtain ⟨_, _, hd⟩ := holds_part h hd
  exact (holds_layout.mp (holds_spread.mp (holds_layout.mp hd).2 c hc)).1

theorem children_part (h : s.Holds p.base (p.tree.layout p.base parent input)) (hd : p.Part d) :
    s.children (some d.root) = d.children.map fun c => some c.root := by
  obtain ⟨_, _, hnode⟩ := get?_part h hd
  rw [children, hnode]
  rfl

theorem above_part (h : s.Holds p.base (p.tree.layout p.base parent input)) (hd : p.Part d) :
    s.Above p.root d.root := by
  induction hd with
  | whole => exact .refl _
  | inside hd hc ih =>
    refine ih.listed ?_
    rw [children_part h hd]
    exact List.mem_map_of_mem hc

/-- The nodes from an id on are one tree, the script of an input. The script comes last, below no
node, and is the only one with an input. Each other node is listed once, by the node that is its
parent and by no other of them; what they list are nodes of the tree; and all are reached from the
script. -/
structure OneTree (s : NodeStore) (base root : Nat) (input : InputId) : Prop where
  first : base ≤ root
  last : root + 1 = s.size
  script : ∃ node, s.get? (some root) = some node ∧ node.kind = .script ∧ node.parent = none ∧
    node.input = some input
  others : ∀ (id : Nat) node, base ≤ id → id ≠ root → s.get? (some id) = some node →
    node.kind ≠ .script ∧ node.input = none
  listed : ∀ id : Nat, base ≤ id → id < root → ∃ above : Nat, base ≤ above ∧ above ≤ root ∧
    s.parent (some id) = some above ∧ (s.children (some above)).count (some id) = 1
  only : ∀ id above : Nat, base ≤ above → some id ∈ s.children (some above) →
    s.parent (some id) = some above
  closed : ∀ above : Nat, base ≤ above → ∀ child ∈ s.children (some above),
    ∃ id : Nat, child = some id ∧ base ≤ id ∧ id < root
  reached : ∀ id : Nat, base ≤ id → id ≤ root → s.Above root id

theorem lt_of_listed {id : Nat} {child : Option NodeId} (h : child ∈ s.children (some id)) :
    id < s.size := by
  cases hnode : s.get? (some id) with
  | none =>
    rw [children, hnode] at h
    cases h
  | some node => exact lt_of_get? hnode

/-- The root of a script comes last. -/
theorem script_last (hscript : p.tree.kind = .script) : p.root + 1 = p.base + p.tree.size := by
  have hpos := p.tree.size_pos
  have hleads : p.tree.leads = false := by simp [Tree.leads, hscript]
  rw [Planted.root, Tree.rootOffset, hleads, if_neg Bool.false_ne_true]
  omega

/-- Below the root, a node is listed by the one above it, which is its parent. -/
theorem parent_below (h : s.Holds p.base (p.tree.layout p.base parent input)) (hd : p.Part d)
    (hc : c ∈ d.children) : s.parent (some c.root) = some d.root := by
  rw [NodeStore.parent, get?_below h hd hc]
  rfl

/-- It stands in the tree, and in front of the root if that is the root of a script. -/
theorem root_below (h : s.Holds p.base (p.tree.layout p.base none input))
    (hscript : p.tree.kind = .script) (hd : p.Part d) (hc : c ∈ d.children) :
    p.base ≤ c.root ∧ c.root < p.root := by
  have hlast := script_last hscript
  have hwithin := (hd.inside hc).within
  have hmem := c.root_mem
  have hne : c.root ≠ p.root := by
    intro hsame
    have hparent := parent_below h hd hc
    have hroot : s.get? (some p.root) = _ := (holds_layout.mp h).1
    rw [hsame, NodeStore.parent, hroot] at hparent
    cases hparent
  omega

/-- A script that stands at the end of a store is one tree. -/
theorem oneTree_of_holds {input : InputId}
    (h : s.Holds p.base (p.tree.layout p.base none (some input)))
    (hsize : s.size = p.base + p.tree.size) (hscript : p.tree.kind = .script)
    (hinner : ∀ t ∈ p.tree.children, t.Inner) : s.OneTree p.base p.root input := by
  have hlast := script_last hscript
  have hpart : ∀ id : Nat, p.base ≤ id → id < s.size → ∃ d, p.Part d ∧ d.root = id :=
    fun id hle hlt => Planted.exists_part hle (hsize ▸ hlt)
  exact {
    first := p.root_mem.1
    last := hlast.trans hsize.symm
    script := ⟨_, (holds_layout.mp h).1, hscript, rfl, rfl⟩
    others := by
      intro id node hle hne hnode
      obtain ⟨d, hd, rfl⟩ := hpart id hle (lt_of_get? hnode)
      cases hd with
      | whole => exact absurd rfl hne
      | inside hd hc =>
        rw [get?_below h hd hc] at hnode
        cases hnode
        exact ⟨(hd.inner hinner hc).kind_ne.1, rfl⟩
    listed := by
      intro id hle hlt
      obtain ⟨c, hc, rfl⟩ := hpart id hle (by omega)
      cases hc with
      | whole => exact absurd hlt (Nat.lt_irrefl _)
      | @inside d _ hd hc =>
        have hwithin := hd.within
        have hmem := d.root_mem
        refine ⟨d.root, by omega, by omega, parent_below h hd hc, ?_⟩
        rw [children_part h hd]
        exact List.count_eq_one_of_mem (nodup_roots d) (List.mem_map_of_mem hc)
    only := by
      intro id above hle hlisted
      obtain ⟨d, hd, rfl⟩ := hpart above hle (lt_of_listed hlisted)
      rw [children_part h hd] at hlisted
      obtain ⟨c, hc, hid⟩ := List.mem_map.mp hlisted
      exact hid ▸ parent_below h hd hc
    closed := by
      intro above hle child hlisted
      obtain ⟨d, hd, rfl⟩ := hpart above hle (lt_of_listed hlisted)
      rw [children_part h hd] at hlisted
      obtain ⟨c, hc, hchild⟩ := List.mem_map.mp hlisted
      exact ⟨c.root, hchild.symm, root_below h hscript hd hc⟩
    reached := by
      intro id hle hlt
      obtain ⟨d, hd, rfl⟩ := hpart id hle (by omega)
      exact above_part h hd }

theorem plant_eq (s : NodeStore) (input : InputId) (tree : Tree) :
    s.plant input tree = ⟨s.nodes ++ (tree.layout s.size none (some input)).toArray⟩ :=
  congrArg NodeStore.mk (plant_nodes s input tree)

theorem oneTree_plant (s : NodeStore) (input : InputId) {tree : Tree}
    (hscript : tree.kind = .script) (hinner : ∀ t ∈ tree.children, t.Inner) :
    (s.plant input tree).OneTree s.size (s.nextRoot tree) input := by
  rw [plant_eq]
  refine @oneTree_of_holds _ ⟨s.size, tree⟩ _ (holds_append_self _) ?_ hscript hinner
  simp [NodeStore.size]

/-- Parsing into a store changes no node that was there, and where it succeeds the new nodes are one
tree, with the script that it answers with at its root. -/
theorem parseInto_fresh (s : NodeStore) (input : InputId) (source : String) :
    (∀ id < s.size, (s.parseInto input source).1.get? (some id) = s.get? (some id)) ∧
      ∀ root, (s.parseInto input source).2 = .ok root →
        (s.parseInto input source).1.OneTree s.size root input := by
  rw [parseInto]
  cases hparse : parse source with
  | error refusal =>
    dsimp only
    rw [strew_eq]
    exact ⟨fun id hid => Array.getElem?_append_left hid, nofun⟩
  | ok tree =>
    obtain ⟨span, body, htree, hbody⟩ := fits_of_parse hparse
    have hinner : ∀ t ∈ tree.children, t.Inner := fun t ht =>
      inner_of_fits (hbody t (by rwa [htree] at ht))
    have hone := oneTree_plant s input (by rw [htree]; rfl) hinner
    refine ⟨fun id hid => ?_, fun root hroot => ?_⟩
    · dsimp only
      rw [plant_eq]
      exact Array.getElem?_append_left hid
    · cases hroot
      exact hone

example : (empty.parseInto 0 "var a = b;").2.toOption = some 3 := by decide +kernel

end NodeStore

end RefCheck.Script
