import RefCheck.Proofs.Script.Planting

/-!
# Growing stores

Later nodes stand behind the earlier ones. An earlier node stays as it is, but scripts and roots may
get more children behind those that they have. So a tree inside a script is shown forever.
-/

namespace RefCheck.Script

/-- What a node may become: only a script or a root gets more children. -/
structure Node.Grew (old new : Node) : Prop where
  same : new = { old with children := new.children }
  more : old.children <+: new.children
  inner : old.kind ≠ .script → old.kind ≠ .root → new = old

theorem Node.grew_refl (node : Node) : node.Grew node := ⟨rfl, List.prefix_rfl, fun _ _ => rfl⟩

theorem Node.Grew.kind {old new : Node} (h : old.Grew new) : new.kind = old.kind := by rw [h.same]

theorem Node.Grew.parent {old new : Node} (h : old.Grew new) : new.parent = old.parent := by
  rw [h.same]

theorem Node.Grew.input {old new : Node} (h : old.Grew new) : new.input = old.input := by
  rw [h.same]

theorem Node.Grew.trans {a b c : Node} (hab : a.Grew b) (hbc : b.Grew c) : a.Grew c where
  same := by rw [hbc.same, hab.same]
  more := hab.more.trans hbc.more
  inner hscript hroot := by
    rw [hbc.inner (hab.kind ▸ hscript) (hab.kind ▸ hroot), hab.inner hscript hroot]

namespace NodeStore

variable {s t u : NodeStore} {id : Nat} {node : Node} {parent : Option NodeId} {p : Planted}

def Grew (s t : NodeStore) : Prop :=
  ∀ (id : Nat) node, s.nodes[id]? = some node → ∃ new, t.nodes[id]? = some new ∧ node.Grew new

theorem grew_refl (s : NodeStore) : s.Grew s := fun _ node h => ⟨node, h, node.grew_refl⟩

theorem Grew.trans (hst : s.Grew t) (htu : t.Grew u) : s.Grew u := by
  intro id node h
  obtain ⟨mid, hmid, hgrew⟩ := hst id node h
  obtain ⟨new, hnew, hmore⟩ := htu id mid hmid
  exact ⟨new, hnew, hgrew.trans hmore⟩

theorem Grew.size_le (h : s.Grew t) : s.size ≤ t.size := by
  change s.nodes.size ≤ t.nodes.size
  rcases Nat.eq_zero_or_pos s.nodes.size with hzero | hpos
  · exact hzero ▸ Nat.zero_le _
  · have hlast : s.nodes.size - 1 < s.nodes.size := Nat.sub_lt hpos Nat.one_pos
    obtain ⟨new, hnew, -⟩ := h _ _ (Array.getElem?_eq_getElem hlast)
    have hlt := (Array.getElem?_eq_some_iff.mp hnew).1
    omega

theorem Grew.kind (h : s.Grew t) {id : Option NodeId} {kind : NodeKind}
    (hkind : s.kind? id = some kind) : t.kind? id = some kind := by
  cases id with
  | none => exact hkind
  | some id =>
    obtain ⟨node, hnode, rfl⟩ := Option.map_eq_some_iff.mp hkind
    obtain ⟨new, hnew, hgrew⟩ := h id node hnode
    exact Option.map_eq_some_iff.mpr ⟨new, hnew, hgrew.kind⟩

/-- A tree inside a script is shown by every later store. -/
theorem Shows.mono (hs : s.Shows parent p) (h : s.Grew t) : t.Shows parent p := by
  obtain ⟨base, tree⟩ := p
  induction tree generalizing base parent with
  | node kind text span children ih =>
    obtain ⟨hscript, hroot⟩ := hs.inner.kind_ne
    obtain ⟨new, hnew, hgrew⟩ := h _ _ hs.get?
    rw [hgrew.inner hscript hroot] at hnew
    refine ⟨holds_layout.mpr ⟨hnew, (shows_spread.mpr fun c hc => ?_).1⟩, hs.inner⟩
    exact ih c.tree (spread_tree hc) c.base (hs.child hc)

theorem inputWithin_mono {steps more : Nat} {id : Option NodeId} {input : InputId}
    (h : s.inputWithin steps id = some input) (hgrew : s.Grew t) (hsteps : steps ≤ more) :
    t.inputWithin more id = some input := by
  induction steps generalizing id more with
  | zero => cases h
  | succ steps ih =>
    obtain ⟨more, rfl⟩ : ∃ m, more = m + 1 := ⟨more - 1, by omega⟩
    cases id with
    | none => cases h
    | some id =>
      rw [inputWithin] at h ⊢
      cases hnode : s.get? (some id) with
      | none => rw [hnode] at h; cases h
      | some node =>
        obtain ⟨new, hnew, hgrown⟩ := hgrew id node hnode
        have hnew : t.get? (some id) = some new := hnew
        rw [hnode] at h
        simp only [hnew, hgrown.kind, hgrown.input, hgrown.parent] at h ⊢
        split
        · next hkind => rwa [if_pos hkind] at h
        · next hkind => exact ih (by rwa [if_neg hkind] at h) (by omega)

theorem Shows.inputWithin {steps : Nat} {input : InputId} (hs : s.Shows parent p)
    (h : s.inputWithin steps parent = some input) :
    s.inputWithin (steps + 1) (some p.root) = some input := by
  rw [NodeStore.inputWithin, hs.get?]
  exact (if_neg hs.inner.kind_ne.1).trans h

/-- New nodes at the end, one of them behind the children that the parent has. -/
def hang (s : NodeStore) (nodes : List Node) (parent child : Nat) : NodeStore :=
  modify ⟨s.nodes ++ nodes.toArray⟩ (some parent)
    fun node => { node with children := node.children ++ [some child] }

theorem grew_append (s : NodeStore) (nodes : List Node) : s.Grew ⟨s.nodes ++ nodes.toArray⟩ := by
  intro id node h
  refine ⟨node, ?_, node.grew_refl⟩
  have hlt := (Array.getElem?_eq_some_iff.mp h).1
  rwa [Array.getElem?_append_left hlt]

section Hang

variable {nodes : List Node} {parent child : Nat}

theorem getElem?_hang (id : Nat) :
    (s.hang nodes parent child).nodes[id]? =
      if parent = id then (s.nodes ++ nodes.toArray)[id]?.map fun node =>
        { node with children := node.children ++ [some child] }
      else (s.nodes ++ nodes.toArray)[id]? := by
  rw [hang, modify, Array.getElem?_modify]

theorem get?_hang_parent (h : s.get? (some parent) = some node) :
    (s.hang nodes parent child).get? (some parent) =
      some { node with children := node.children ++ [some child] } := by
  have h : s.nodes[parent]? = some node := h
  have hlt := (Array.getElem?_eq_some_iff.mp h).1
  change (s.hang nodes parent child).nodes[parent]? = _
  rw [getElem?_hang, if_pos rfl, Array.getElem?_append_left hlt, h]
  rfl

theorem get?_hang_of_ne (hid : id ≠ parent) (h : s.get? (some id) = some node) :
    (s.hang nodes parent child).get? (some id) = some node := by
  have h : s.nodes[id]? = some node := h
  have hlt := (Array.getElem?_eq_some_iff.mp h).1
  change (s.hang nodes parent child).nodes[id]? = _
  rw [getElem?_hang, if_neg hid.symm, Array.getElem?_append_left hlt, h]

theorem holds_hang (hparent : parent < s.size) :
    (s.hang nodes parent child).Holds s.size nodes := by
  intro k node h
  have hne : parent ≠ s.size + k := by omega
  rw [getElem?_hang, if_neg hne]
  change (s.nodes ++ nodes.toArray)[s.nodes.size + k]? = some node
  rw [Array.getElem?_append_right (Nat.le_add_right _ _), Nat.add_sub_cancel_left,
    List.getElem?_toArray, h]

theorem grew_hang (h : s.get? (some parent) = some node)
    (hkind : node.kind = .script ∨ node.kind = .root) : s.Grew (s.hang nodes parent child) := by
  intro id old hold
  by_cases hid : id = parent
  · subst hid
    have hsame : old = node := Option.some.inj (hold.symm.trans h)
    subst hsame
    refine ⟨_, get?_hang_parent h, rfl, List.prefix_append _ _, ?_⟩
    intro hscript hroot
    exact absurd hkind (by simp [hscript, hroot])
  · exact ⟨old, get?_hang_of_ne hid hold, old.grew_refl⟩

end Hang

theorem ext_nodes (h : ∀ id : Nat, s.nodes[id]? = t.nodes[id]?) : s = t := by
  cases s
  cases t
  exact congrArg NodeStore.mk (Array.ext_getElem? h)

theorem getElem?_appendChild {parent child : Nat} (h : parent ≠ child) (id : Nat) :
    (s.appendChild (some parent) (some child)).nodes[id]? =
      if parent = id then
        s.nodes[id]?.map fun node => { node with children := node.children ++ [some child] }
      else if child = id then s.nodes[id]?.map fun node => { node with parent := some parent }
      else s.nodes[id]? := by
  simp only [appendChild, modify, Array.getElem?_modify]
  split
  · next hparent =>
    subst hparent
    simp [h.symm]
  · rfl

/-- The parent and the input matter for the root of a layout only. -/
theorem getElem?_layout (p : Planted) (parent : Option NodeId) {input : Option InputId} (k : Nat) :
    (p.tree.layout p.base parent input)[k]? =
      if k = p.tree.rootOffset then some (p.record parent input)
      else (p.tree.layout p.base none none)[k]? := by
  obtain ⟨base, kind, text, span, children⟩ := p
  by_cases hname : kind = .name
  · have hoffset : (Tree.node kind text span children).rootOffset = 0 := by
      simp [Tree.rootOffset, Tree.leads, Tree.kind, hname]
    have hbelow : Planted.below ⟨base, .node kind text span children⟩ = base + 1 := by
      simp [Planted.below, Tree.leads, Tree.kind, hname]
    rw [hoffset, Tree.layout, Tree.layout, if_pos hname, if_pos hname, Planted.record,
      Planted.children, hbelow, rootIds_eq, List.map_map]
    cases k <;> rfl
  · have hoffset : (Tree.node kind text span children).rootOffset = Tree.forestSize children := by
      simp [Tree.rootOffset, Tree.leads, Tree.kind, hname]
    have hbelow : Planted.below ⟨base, .node kind text span children⟩ = base := by
      simp [Planted.below, Tree.leads, Tree.kind, hname]
    rw [hoffset, Tree.layout, Tree.layout, if_neg hname, if_neg hname, Planted.record,
      Planted.children, hbelow, rootIds_eq, List.map_map]
    split
    · next hk =>
      subst hk
      rw [List.getElem?_append_right (by simp), length_forestLayout, Nat.sub_self]
      rfl
    · next hk =>
      rw [List.getElem?_append, List.getElem?_append]
      split
      · rfl
      · next hlt =>
        rw [length_forestLayout] at hlt ⊢
        obtain ⟨j, hj⟩ : ∃ j, k - Tree.forestSize children = j + 1 :=
          ⟨k - Tree.forestSize children - 1, by omega⟩
        rw [hj]
        rfl

/-- Laying a script out and hanging it below a root. -/
theorem appendChild_plant {tree : Tree} {input : InputId} {parent : Nat} (h : parent < s.size) :
    (s.plant input tree).appendChild (some parent) (some (s.nextRoot tree)) =
      s.hang (tree.layout s.size (some parent) (some input)) parent (s.nextRoot tree) := by
  have h : parent < s.nodes.size := h
  have hroot : @Eq Nat (s.nextRoot tree) (s.nodes.size + tree.rootOffset) := rfl
  apply ext_nodes
  intro id
  rw [getElem?_appendChild (by omega), getElem?_hang, plant_nodes]
  by_cases hparent : parent = id
  · subst hparent
    rw [if_pos rfl, if_pos rfl, Array.getElem?_append_left h, Array.getElem?_append_left h]
  · rw [if_neg hparent, if_neg hparent]
    by_cases hlt : id < s.nodes.size
    · rw [if_neg (by omega), Array.getElem?_append_left hlt, Array.getElem?_append_left hlt]
    · rw [Array.getElem?_append_right (by omega), Array.getElem?_append_right (by omega),
        List.getElem?_toArray, List.getElem?_toArray,
        getElem?_layout ⟨s.size, tree⟩ (some parent),
        getElem?_layout ⟨s.size, tree⟩ none]
      split
      · next hchild =>
        rw [if_pos (by dsimp only; omega), if_pos (by dsimp only; omega)]
        rfl
      · next hchild => rw [if_neg (by dsimp only; omega), if_neg (by dsimp only; omega)]

/-- Hanging a single new node below a script or a root. -/
theorem appendChild_push {parent : Nat} (h : parent < s.size) :
    (s.push node).appendChild (some parent) (some s.size) =
      s.hang [{ node with parent := some parent }] parent s.size := by
  have h : parent < s.nodes.size := h
  have hsize : s.size = s.nodes.size := rfl
  apply ext_nodes
  intro id
  rw [getElem?_appendChild (by omega), getElem?_hang, push]
  by_cases hparent : parent = id
  · subst hparent
    rw [if_pos rfl, if_pos rfl, Array.getElem?_push_lt h, Array.getElem?_append_left h,
      Array.getElem?_eq_getElem h]
  · rw [if_neg hparent, if_neg hparent]
    by_cases hid : s.size = id
    · subst hid
      rw [if_pos rfl, hsize, Array.getElem?_push_size, Array.getElem?_append_right (Nat.le_refl _)]
      simp
    · rw [if_neg hid, Array.getElem?_push, if_neg (by omega)]
      by_cases hlt : id < s.nodes.size
      · rw [Array.getElem?_append_left hlt]
      · rw [Array.getElem?_eq_none (by omega), Array.getElem?_append_right (by omega)]
        simp
        omega

end NodeStore

end RefCheck.Script
