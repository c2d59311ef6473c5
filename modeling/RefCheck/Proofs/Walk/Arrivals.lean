import RefCheck.Proofs.Check.Integrity

/-!
# Where a walk comes to

A walk of the roots comes only to nodes that can be reached from them, and the input that it carries
along is the one at which going up from the node ends. So visitors that do the same at such places
are walked alike, whatever they add to the program below its scripts and roots.
-/

namespace RefCheck

open RefCheck.Script

namespace Script.NodeStore

variable {s t : NodeStore} {root n : Nat} {path : List Nat}

/-- Ways down stay when a store grows. -/
theorem Grew.follow (h : s.Grew t) (hn : s.follow (some root) path = some n) :
    t.follow (some root) path = some n := by
  induction path using List.reverseRecOn generalizing n with
  | nil => exact hn
  | append_singleton front step ih =>
    rw [follow_concat] at hn ⊢
    obtain ⟨above, node, habove, hnode, hlisted⟩ := mem_children_of_step hn
    rw [habove] at hnode
    obtain ⟨new, hnew, hgrown⟩ := h above node hnode
    obtain ⟨more, hmore⟩ := hgrown.more
    have hlater : new.children[step]? = some (some n) := by
      rw [← hmore, List.getElem?_append_left (List.getElem?_eq_some_iff.mp hlisted).1, hlisted]
    rw [ih habove, children, show t.get? (some above) = some new from hnew]
    exact congrArg Option.join hlater

end Script.NodeStore

namespace Program

variable {p q : Program} {plots others : List Plot} {path : List Nat} {root n : NodeId}

/-- There is a way down to a node from one of the roots. -/
def Leads (p : Program) (root : NodeId) (path : List Nat) (n : NodeId) : Prop :=
  root ∈ roots ∧ p.store.follow (some root) path = some n

/-- A walk may come to a place: its node can be reached, and its input is the one around it. -/
structure Arrives (p : Program) (place : Place) : Prop where
  way : ∃ root path, p.Leads root path place.node
  input : place.input = p.store.inputOf (some place.node)

/-- What a walk carries along when it comes to the end of a way. Scripts say themselves which input
they are of. -/
def carried (p : Program) (path : List Nat) (n : NodeId) : Option InputId :=
  if path.length ≤ 1 then none else p.store.inputOf (some n)

/-- The input of a place is none exactly at the roots. -/
theorem Holds.inputOf_eq_none (hp : p.Holds plots) (h : p.Leads root path n) :
    p.store.inputOf (some n) = none ↔ n ∈ roots := by
  obtain ⟨hroot, hpath⟩ := h
  refine ⟨fun hnone => ?_, fun hn => (hp.root_spec hn).2.1⟩
  cases path with
  | nil => exact Option.some.inj hpath ▸ hroot
  | cons step rest =>
    obtain ⟨plot, -, -, hsome⟩ := hp.inputOf_way hroot hpath
    rw [hsome] at hnone
    cases hnone

/-- With what is carried along, the input at a node is the one around it. -/
theorem Holds.input_eq (hp : p.Holds plots) (h : p.Leads root path n) {node : Node}
    (hnode : p.store.get? (some n) = some node) :
    (if node.kind = .script then node.input else p.carried path n) = p.store.inputOf (some n) := by
  obtain ⟨hroot, hpath⟩ := h
  rcases path with _ | ⟨step, _ | ⟨next, rest⟩⟩
  · obtain rfl := Option.some.inj hpath
    rw [hp.node root (mem_roots.mp hroot)] at hnode
    obtain rfl := Option.some.inj hnode
    exact (hp.root_spec hroot).2.1.symm
  · obtain ⟨plot, hplot, rfl⟩ := hp.script_of_step hroot hpath
    rw [(hp.shown plot hplot).node] at hnode
    obtain rfl := Option.some.inj hnode
    exact (inputOf_script (hp.shown plot hplot)).symm
  · obtain ⟨-, -, -, ⟨hnil, -⟩ | ⟨v, hv, -, rfl⟩⟩ := hp.on_way hroot hpath
    · cases hnil
    · rw [hv.shown.get?] at hnode
      obtain rfl := Option.some.inj hnode
      rw [if_neg (show (v.tree.record _ _).kind ≠ .script from hv.shown.inner.kind_ne.1)]
      exact if_neg (by simp)

/-- Below a node the input around it is carried along. -/
theorem Holds.carried_concat (hp : p.Holds plots) (h : p.Leads root path n) {step child : Nat}
    (hchild : p.Leads root (path ++ [step]) child) :
    p.carried (path ++ [step]) child = p.store.inputOf (some n) := by
  obtain ⟨hroot, hpath⟩ := h
  cases path with
  | nil =>
    obtain rfl := Option.some.inj hpath
    exact (hp.root_spec hroot).2.1.symm
  | cons first rest =>
    obtain ⟨plot, hplot, hfirst, hn⟩ := hp.inputOf_way hroot hpath
    obtain ⟨other, hother, hfirst', hc⟩ := hp.inputOf_way hroot hchild.2
    have hsame := hp.eq_of_root hplot hother (Option.some.inj (hfirst.symm.trans hfirst'))
    rw [hn, hsame, ← hc]
    exact if_neg (by simp)

/-- The input around a node does not change while a program grows. -/
theorem Holds.inputOf_grew (hp : p.Holds plots) (hq : q.Holds others) (h : p.Leads root path n)
    (hgrew : p.store.Grew q.store) : q.store.inputOf (some n) = p.store.inputOf (some n) := by
  obtain ⟨hroot, hpath⟩ := h
  cases path with
  | nil =>
    obtain rfl := Option.some.inj hpath
    rw [(hp.root_spec hroot).2.1, (hq.root_spec hroot).2.1]
  | cons step rest =>
    obtain ⟨plot, -, -, hn⟩ := hp.inputOf_way hroot hpath
    rw [hn]
    exact NodeStore.inputWithin_mono hn hgrew (Nat.succ_le_succ hgrew.size_le)

theorem Leads.grew (h : p.Leads root path n) (hgrew : p.store.Grew q.store) :
    q.Leads root path n := ⟨h.1, hgrew.follow h.2⟩

end Program

section Alike

open RefCheck.Program

variable {ε σ : Type} {visit other : Visitor ε σ} {Fine : Program → σ → Prop}
  {s t : WalkState σ} {walk walk' : Progress ε (WalkState σ)} {depth : Nat}

/-- Two visitors do the same wherever a walk can come to, and keep what they rely on. Both only add
to programs. -/
structure Visitor.Alike (visit other : Visitor ε σ) (Fine : Program → σ → Prop) : Prop where
  holds : ∀ p own, Fine p own → ∃ plots, p.Holds plots
  same : ∀ place (s : WalkState σ), Fine s.program s.own → s.program.Arrives place →
    other place s = visit place s
  fine : ∀ place (s : WalkState σ), Fine s.program s.own → s.program.Arrives place →
    Fine (visit place s).state.program (visit place s).state.own
  grew : ∀ place (s : WalkState σ), Fine s.program s.own → s.program.Arrives place →
    s.program.store.Grew (visit place s).state.program.store

/-- Two walks from a program are the same, and go as visitors go that are alike. -/
structure Goes (Fine : Program → σ → Prop) (p : Program) (walk walk' : Progress ε (WalkState σ)) :
    Prop where
  same : walk' = walk
  fine : Fine walk.state.program walk.state.own
  grew : p.store.Grew walk.state.program.store

theorem Goes.refl (h : Fine s.program s.own) :
    Goes Fine s.program (.on s) (.on s : Progress ε (WalkState σ)) :=
  ⟨rfl, h, NodeStore.grew_refl _⟩

theorem Goes.andThen {p : Program} {next next' : WalkState σ → Progress ε (WalkState σ)}
    (h : Goes Fine p walk walk')
    (hnext : ∀ t, Fine t.program t.own → p.store.Grew t.program.store →
      Goes Fine t.program (next t) (next' t)) :
    Goes Fine p (walk.andThen next) (walk'.andThen next') := by
  obtain ⟨rfl, hfine, hgrew⟩ := h
  cases walk' with
  | on t =>
    have hgoes := hnext t hfine hgrew
    exact ⟨hgoes.same, hgoes.fine, hgrew.trans hgoes.grew⟩
  | stopped e t => exact ⟨rfl, hfine, hgrew⟩

theorem Goes.each {α : Type} {step step' : α → WalkState σ → Progress ε (WalkState σ)}
    {items : List α} (hs : Fine s.program s.own)
    (h : ∀ item ∈ items, ∀ t, Fine t.program t.own → s.program.store.Grew t.program.store →
      Goes Fine t.program (step item t) (step' item t)) :
    Goes Fine s.program (Progress.each step items s) (Progress.each step' items s) := by
  induction items generalizing s with
  | nil => exact .refl hs
  | cons item rest ih =>
    obtain ⟨hitem, hrest⟩ := List.forall_mem_cons.mp h
    refine (hitem s hs (NodeStore.grew_refl _)).andThen fun t ht hst => ?_
    exact ih ht fun item hmem u hu htu => hrest item hmem u hu (hst.trans htu)

/-- Walks of so many levels go the same way for both visitors. -/
def Visitor.WalkedAlike (visit other : Visitor ε σ) (Fine : Program → σ → Prop) (depth : Nat) :
    Prop :=
  ∀ root path n parent scopes (s : WalkState σ), Fine s.program s.own →
    s.program.Leads root path n →
      Goes Fine s.program
        (Walk.subtree visit depth (some n) parent (s.program.carried path n) scopes s)
        (Walk.subtree other depth (some n) parent (s.program.carried path n) scopes s)

section Node

variable {root n : NodeId} {path : List Nat} (h : Visitor.Alike visit other Fine)
  (hs : Fine s.program s.own) (hleads : s.program.Leads root path n)

include h hs hleads

/-- The children of a node are walked alike, even if the program grew in the meantime. -/
theorem Visitor.Alike.child (hwalked : Visitor.WalkedAlike visit other Fine depth) {node : Node}
    (hnode : s.program.store.get? (some n) = some node) {child : Option NodeId}
    (hchild : child ∈ node.children) (scopes : List ScopeId) (t : WalkState σ)
    (ht : Fine t.program t.own) (hgrew : s.program.store.Grew t.program.store) :
    Goes Fine t.program
      (Walk.subtree visit depth child (some n) (s.program.store.inputOf (some n)) scopes t)
      (Walk.subtree other depth child (some n) (s.program.store.inputOf (some n)) scopes t) := by
  cases child with
  | none => cases depth <;> exact .refl ht
  | some c =>
    obtain ⟨plots, hp⟩ := h.holds _ _ hs
    obtain ⟨later, hq⟩ := h.holds _ _ ht
    obtain ⟨step, hstep⟩ := List.mem_iff_getElem?.mp hchild
    have hbelow : s.program.Leads root (path ++ [step]) c := by
      refine ⟨hleads.1, ?_⟩
      rw [NodeStore.follow_concat, hleads.2, NodeStore.children, hnode]
      exact congrArg Option.join hstep
    rw [← hp.inputOf_grew hq hleads hgrew,
      ← hq.carried_concat (hleads.grew hgrew) (hbelow.grew hgrew)]
    exact hwalked _ _ _ _ _ t ht (hbelow.grew hgrew)

/-- A node is visited alike after its children. -/
theorem Visitor.Alike.self (parent : Option NodeId) (scopes : List ScopeId) (t : WalkState σ)
    (ht : Fine t.program t.own) (hgrew : s.program.store.Grew t.program.store) :
    Goes Fine t.program (visit ⟨n, parent, s.program.store.inputOf (some n), scopes⟩ t)
      (other ⟨n, parent, s.program.store.inputOf (some n), scopes⟩ t) := by
  obtain ⟨plots, hp⟩ := h.holds _ _ hs
  obtain ⟨later, hq⟩ := h.holds _ _ ht
  have harrives : t.program.Arrives ⟨n, parent, s.program.store.inputOf (some n), scopes⟩ :=
    ⟨⟨root, path, hleads.grew hgrew⟩, (hp.inputOf_grew hq hleads hgrew).symm⟩
  exact ⟨h.same _ t ht harrives, h.fine _ t ht harrives, h.grew _ t ht harrives⟩

end Node

theorem Visitor.Alike.walkedAlike (h : Visitor.Alike visit other Fine) (depth : Nat) :
    Visitor.WalkedAlike visit other Fine depth := by
  induction depth with
  | zero => exact fun _ _ _ _ _ s hs _ => .refl hs
  | succ depth ih =>
    intro root path n parent scopes s hs hleads
    obtain ⟨plots, hp⟩ := h.holds _ _ hs
    cases hnode : s.program.store.get? (some n) with
    | none =>
      simp only [Walk.subtree, hnode]
      exact .refl hs
    | some node =>
      have hchild : ∀ child ∈ node.children, _ := fun child => h.child hs hleads ih hnode
      simp only [Walk.subtree, hnode, hp.input_eq hleads hnode]
      refine Goes.andThen ?_ fun t ht hgrew => h.self hs hleads parent scopes t ht hgrew
      split
      · exact .refl hs
      · next name rest _ hlisted =>
        refine Goes.andThen ?_ fun t ht hgrew => ?_
        · split
          · exact .refl hs
          · exact hchild name (hlisted ▸ List.mem_cons_self) scopes s hs (NodeStore.grew_refl _)
        · refine Goes.each (s := t.entering n scopes) ht fun child hmem u hu htu => ?_
          refine hchild child ?_ _ u hu (hgrew.trans htu)
          rw [hlisted]
          split at hmem
          · exact hmem
          · exact List.mem_cons_of_mem _ hmem
      · exact .each hs fun child hmem => hchild child hmem scopes

/-- Walks of the two roots go the same way for visitors that are alike. -/
theorem Visitor.Alike.roots (h : Visitor.Alike visit other Fine) {p : Program} {own : σ}
    (hfine : Fine p own) :
    Goes Fine p (Walk.roots visit p [some externsRoot, some mainRoot] own)
      (Walk.roots other p [some externsRoot, some mainRoot] own) := by
  refine Goes.each (s := Walk.start p [some externsRoot, some mainRoot] own) hfine ?_
  intro id hid t ht _
  obtain ⟨root, hroot, rfl⟩ : ∃ root ∈ Program.roots, some root = id := List.mem_map.mp hid
  exact h.walkedAlike _ root [] root none [0] t ht ⟨hroot, rfl⟩

end Alike

end RefCheck
