import RefCheck.Proofs.Walk.Visits

/-!
# Walks follow their visits

A step on states of some other kind simulates a visitor if both do the same at every visit, given
related states. Then a walk does the same as the steps for the visits to its tree, one after the
other. The visitor may add to the program as long as the trees inside scripts stay as they are.
-/

namespace RefCheck

open RefCheck.Script

namespace Progress

variable {ε α β : Type} {R R' : β → α → Prop} {x : Progress ε β} {y : Progress ε α}

/-- Both go on, or both stop at the same error, in related states. -/
def Follows (R : β → α → Prop) : Progress ε β → Progress ε α → Prop
  | on b, on a => R b a
  | stopped e b, stopped e' a => e = e' ∧ R b a
  | _, _ => False

theorem Follows.imp (h : Follows R x y) (himp : ∀ b a, R b a → R' b a) : Follows R' x y := by
  cases x with
  | on b =>
    cases y with
    | on a => exact himp b a h
    | stopped e a => exact h.elim
  | stopped e b =>
    cases y with
    | on a => exact h.elim
    | stopped e' a => exact ⟨h.1, himp b a h.2⟩

theorem Follows.andThen {f : β → Progress ε β} {g : α → Progress ε α} (h : Follows R x y)
    (hstop : ∀ b a, R b a → R' b a) (hnext : ∀ b a, R b a → Follows R' (f b) (g a)) :
    Follows R' (x.andThen f) (y.andThen g) := by
  cases x with
  | on b =>
    cases y with
    | on a => exact hnext b a h
    | stopped e a => exact h.elim
  | stopped e b =>
    cases y with
    | on a => exact h.elim
    | stopped e' a => exact ⟨h.1, hstop b a h.2⟩

/-- Both end in related states and at the same error, if any. -/
theorem Follows.ended (h : Follows R x y) : R x.state y.state ∧ x.error? = y.error? := by
  cases x with
  | on b =>
    cases y with
    | on a => exact ⟨h, rfl⟩
    | stopped e a => exact h.elim
  | stopped e b =>
    cases y with
    | on a => exact h.elim
    | stopped e' a => exact ⟨h.2, congrArg some h.1⟩

theorem andThen_on (x : Progress ε β) : x.andThen on = x := by cases x <;> rfl

theorem each_singleton {ι : Type} (step : ι → β → Progress ε β) (item : ι) :
    each step [item] = step item := by
  funext b
  exact andThen_on _

end Progress

namespace Script.NodeStore

variable {s t : NodeStore} {v : Visit} {site : Site} {p c : Planted}

/-- The store has the node that a site is below. -/
structure Hosts (s : NodeStore) (site : Site) : Prop where
  node : ∃ node, s.get? (some site.parent) = some node ∧ node.kind = site.above ∧
    node.children ≠ [] ∧ (site.above ≠ .script → node.firstChild = site.first)
  outer : site.above = .function →
    ∃ kind, s.kind? (s.parent (some site.parent)) = some kind ∧
      site.isDeclared = kind.holdsStatements
  plain : site.above ≠ .function → site.isDeclared = false

/-- The tree of a visit stands at its site, in the script of the site's input. -/
structure Stands (s : NodeStore) (v : Visit) : Prop where
  shown : s.Shows (some v.site.parent) v.tree
  hosts : s.Hosts v.site
  input : ∃ steps, s.inputWithin steps (some v.site.parent) = some v.site.input ∧
    steps + v.tree.tree.size ≤ s.size + 1

theorem Grew.parent (h : s.Grew t) {id : Nat} {kind : NodeKind}
    (hkind : s.kind? (some id) = some kind) : t.parent (some id) = s.parent (some id) := by
  obtain ⟨node, hnode, rfl⟩ := Option.map_eq_some_iff.mp hkind
  obtain ⟨new, hnew, hgrew⟩ := h id node hnode
  rw [NodeStore.parent, NodeStore.parent, hnode, show t.get? (some id) = some new from hnew]
  exact hgrew.parent

theorem Hosts.kind_eq (h : s.Hosts site) : s.kind? (some site.parent) = some site.above := by
  obtain ⟨node, hnode, hkind, -⟩ := h.node
  rw [NodeStore.kind?, hnode, ← hkind]
  rfl

theorem Hosts.mono (h : s.Hosts site) (hgrew : s.Grew t) : t.Hosts site where
  node := by
    obtain ⟨node, hnode, hkind, hchildren, hfirst⟩ := h.node
    obtain ⟨new, hnew, hgrown⟩ := hgrew site.parent node hnode
    refine ⟨new, hnew, hgrown.kind.trans hkind, ?_, ?_⟩
    · exact List.ne_nil_of_length_pos
        (Nat.lt_of_lt_of_le (List.length_pos_of_ne_nil hchildren) hgrown.more.length_le)
    · intro habove
      obtain ⟨more, hmore⟩ := hgrown.more
      rw [← hfirst habove, Node.firstChild, Node.firstChild, ← hmore,
        List.head?_append_of_ne_nil _ hchildren]
  outer habove := by
    obtain ⟨kind, hkind, hdeclared⟩ := h.outer habove
    exact ⟨kind, hgrew.parent h.kind_eq ▸ hgrew.kind hkind, hdeclared⟩
  plain := h.plain

theorem Stands.mono (h : s.Stands v) (hgrew : s.Grew t) : t.Stands v where
  shown := h.shown.mono hgrew
  hosts := h.hosts.mono hgrew
  input := by
    obtain ⟨steps, hinput, hsteps⟩ := h.input
    exact ⟨steps, inputWithin_mono hinput hgrew (Nat.le_refl _),
      hsteps.trans (Nat.succ_le_succ hgrew.size_le)⟩

theorem Stands.below (h : s.Stands ⟨p, site⟩) (hc : c ∈ p.children) :
    s.Stands ⟨c, site.below p⟩ where
  shown := h.shown.child hc
  hosts := {
    node := ⟨_, h.shown.get?, rfl, by
      simpa [Planted.record] using List.ne_nil_of_mem hc, fun _ => by
      cases hchildren : p.children <;>
        simp [Planted.record, Node.firstChild, Site.below, hchildren]⟩
    outer := fun habove => by
      refine ⟨site.above, ?_, ?_⟩
      · exact h.shown.parent_eq.symm ▸ h.hosts.kind_eq
      · simp [Site.below, show p.tree.kind = .function from habove]
    plain := fun habove => by
      simp [Site.below, show p.tree.kind ≠ .function from habove] }
  input := by
    obtain ⟨steps, hinput, hsteps⟩ := h.input
    have hsize := size_child_lt hc
    exact ⟨steps + 1, h.shown.inputWithin hinput, by simp only at hsteps ⊢; omega⟩

/-- What stands at a site does not depend on the functions around. -/
theorem Stands.functions (h : s.Stands ⟨p, site⟩) (functions : List (List Planted)) :
    s.Stands ⟨p, { site with functions }⟩ :=
  ⟨h.shown, ⟨h.hosts.node, h.hosts.outer, h.hosts.plain⟩, h.input⟩

theorem Stands.inside (h : s.Stands ⟨p, site⟩) (hc : c ∈ p.children) :
    s.Stands ⟨c, site.inside p⟩ := by
  rw [Site.inside]
  split
  · exact (h.below hc).functions _
  · exact h.below hc

theorem Stands.inputOf (h : s.Stands v) : s.inputOf (some v.tree.root) = some v.site.input := by
  obtain ⟨steps, hinput, hsteps⟩ := h.input
  have hpos := v.tree.tree.size_pos
  exact inputWithin_mono (h.shown.inputWithin hinput) (grew_refl s) (by omega)

theorem Stands.isDeclared (h : s.Stands v) :
    s.isFunctionDeclaration (some v.site.parent) = v.site.isDeclared := by
  rw [NodeStore.isFunctionDeclaration, h.hosts.kind_eq]
  by_cases habove : v.site.above = .function
  · obtain ⟨kind, hkind, hdeclared⟩ := h.hosts.outer habove
    simp [habove, hkind, hdeclared]
  · simp [habove, h.hosts.plain habove]

theorem Stands.isLabelName (h : s.Stands v) :
    s.isLabelName (some v.tree.root) = (v.tree.tree.kind = .name && v.isLabel) := by
  obtain ⟨node, hnode, hkind, -, hfirst⟩ := h.hosts.node
  rw [NodeStore.isLabelName, h.shown.get?]
  simp only [Planted.record, hnode, Visit.isLabel, hkind]
  by_cases habove : v.site.above = .script
  · simp [habove]
  · rw [hfirst habove]
    rfl

end Script.NodeStore

section Simulation

variable {ε σ β : Type} {visit : Visitor ε σ} {step : Visit → β → Progress ε β}
  {R : β → WalkState σ → Prop} {known : InputId → Prop} {b : β}
  {s t u : WalkState σ}

/-- A state that is related, and later than another one. -/
structure After (R : β → WalkState σ → Prop) (s : WalkState σ) (b : β) (t : WalkState σ) :
    Prop where
  related : R b t
  grew : s.program.store.Grew t.program.store
  keeps : s.scopes.Keeps t.scopes

theorem After.trans (hst : After R s b t) {b' : β} (htu : After R t b' u) : After R s b' u :=
  ⟨htu.related, hst.grew.trans htu.grew, hst.keeps.trans htu.keeps⟩

/-- The step does the same as the visitor at every visit in the scripts of some inputs. -/
structure Simulation (visit : Visitor ε σ) (step : Visit → β → Progress ε β)
    (R : β → WalkState σ → Prop) (known : InputId → Prop) : Prop where
  sound : ∀ b s, R b s → s.scopes.Sound
  tables : ∀ b s t, R b s → s.scopes.Keeps t →
    (∀ name, t.own? (some 0) name = s.scopes.own? (some 0) name) → R b { s with scopes := t }
  visits : ∀ b s v ids, R b s → known v.site.input → s.program.store.Stands v →
    s.scopes.Models ids v.site.frames → (step v b).Follows (After R s) (visit (v.place ids) s)

/-- Walks of so many levels do the same as the steps for the visits. -/
def Walks (visit : Visitor ε σ) (step : Visit → β → Progress ε β) (R : β → WalkState σ → Prop)
    (known : InputId → Prop) (depth : Nat) : Prop :=
  ∀ (p : Planted) (site : Site) (ids : List Nat) (b : β) (s : WalkState σ), R b s →
    known site.input → s.program.store.Stands ⟨p, site⟩ → s.scopes.Models ids site.frames →
      p.tree.size ≤ depth → (Progress.each step (p.visits site) b).Follows (After R s)
        (Walk.subtree visit depth (some p.root) (some site.parent) (some site.input)
          (ids ++ [0]) s)

theorem Simulation.refl (h : Simulation visit step R known) (hR : R b s) : After R s b s :=
  ⟨hR, NodeStore.grew_refl _, (h.sound b s hR).keeps⟩

theorem Simulation.forest (hsim : Simulation visit step R known) {depth : Nat}
    (h : Walks visit step R known depth) (site : Site) (ids : List Nat) (trees : List Planted)
    (hR : R b s) (htrees : ∀ c ∈ trees, s.program.store.Stands ⟨c, site⟩ ∧ c.tree.size ≤ depth)
    (hknown : known site.input) (hmodels : s.scopes.Models ids site.frames) :
    (Progress.each step (trees.flatMap (Planted.visits site)) b).Follows (After R s)
      (Progress.each (fun child => Walk.subtree visit depth child (some site.parent)
        (some site.input) (ids ++ [0])) (trees.map fun c => some c.root) s) := by
  induction trees generalizing b s with
  | nil => exact hsim.refl hR
  | cons c rest ih =>
    obtain ⟨⟨hc, hsize⟩, hrest⟩ := List.forall_mem_cons.mp htrees
    rw [List.flatMap_cons, Progress.each_append, List.map_cons, Progress.each]
    refine (h c site ids b s hR hknown hc hmodels hsize).andThen (fun _ _ => id) fun b' t ht => ?_
    refine (ih ht.related (fun d hd => ?_) (hmodels.mono ht.keeps)).imp fun _ _ => ht.trans
    exact ⟨(hrest d hd).1.mono ht.grew, (hrest d hd).2⟩

/-- The state right after a function is entered. -/
def WalkState.entering (s : WalkState σ) (function : NodeId) (scopes : List ScopeId) :
    WalkState σ :=
  { s with scopes := s.scopes.pushFunction s.program.store (some function) scopes.head? }

/-- Entering a function, and walking parts of it. -/
theorem Simulation.entered (hsim : Simulation visit step R known) {depth : Nat}
    (h : Walks visit step R known depth) {p : Planted} {site : Site} {ids : List Nat}
    (hkind : p.tree.kind = .function) (trees : List Planted) (hR : R b s)
    (hp : s.program.store.Stands ⟨p, site⟩)
    (htrees : ∀ c ∈ trees, c ∈ p.children ∧ c.tree.size ≤ depth)
    (hknown : known site.input) (hmodels : s.scopes.Models ids site.frames) :
    (Progress.each step (trees.flatMap (Planted.visits (site.inside p))) b).Follows (After R s)
      (Progress.each (fun child => Walk.subtree visit depth child (some p.root) (some site.input)
          (s.scopes.size :: (ids ++ [0])))
        (trees.map fun c => some c.root) (s.entering p.root (ids ++ [0]))) := by
  have hsound := hsim.sound b s hR
  have hpos : 0 < s.scopes.size := Nat.zero_lt_of_lt hmodels.nearest_lt
  have hhead : (ids ++ [0]).head? = some (Frame.nearest ids) := by cases ids <;> rfl
  rw [WalkState.entering, hhead]
  have hkeeps : s.scopes.Keeps (s.scopes.pushFunction s.program.store (some p.root)
    (some (Frame.nearest ids))) := hsound.keeps_pushFunction hpos
  have hinside := hmodels.pushFunction hsound hp.shown hkind hp.hosts.kind_eq hp.inputOf
  have hR' := hsim.tables b s _ hR hkeeps fun name => hsound.own?_pushFunction hpos
  have hsite : site.inside p =
      { site.below p with functions := p.declares site.above :: site.functions } := if_pos hkind
  have hfollows := hsim.forest h (site.inside p) (s.scopes.size :: ids) trees hR'
    (fun c hc => ⟨hp.inside (htrees c hc).1, (htrees c hc).2⟩) (by rw [hsite]; exact hknown)
    (by rw [hsite]; exact hinside)
  rw [hsite] at hfollows ⊢
  exact hfollows.imp fun b' t ht => ⟨ht.related, ht.grew, hkeeps.trans ht.keeps⟩

section Level

variable {id : NodeId} {node : Node} {parent : Option NodeId} {input : Option InputId}
  {scopes : List ScopeId} {depth : Nat}

theorem Walk.subtree_plain (hnode : s.program.store.get? (some id) = some node)
    (hkind : node.kind ≠ .function) :
    Walk.subtree visit (depth + 1) (some id) parent input scopes s =
      (Progress.each (fun child => Walk.subtree visit depth child (some id)
          (if node.kind = .script then node.input else input) scopes) node.children s).andThen
        (visit ⟨id, parent, if node.kind = .script then node.input else input, scopes⟩) := by
  simp only [Walk.subtree]
  rw [hnode]
  obtain ⟨kind, text, span, above, children, own⟩ := node
  cases kind <;> first | exact absurd rfl hkind | rfl

theorem Walk.subtree_declaration {name : Option NodeId} {rest : List (Option NodeId)}
    (hnode : s.program.store.get? (some id) = some node) (hkind : node.kind = .function)
    (hchildren : node.children = name :: rest)
    (hplace : s.program.store.isFunctionExpression (some id) = false) :
    Walk.subtree visit (depth + 1) (some id) parent input scopes s =
      ((Walk.subtree visit depth name (some id) input scopes s).andThen fun t =>
        Progress.each (fun child => Walk.subtree visit depth child (some id) input
          (t.scopes.size :: scopes)) rest (t.entering id scopes)).andThen
        (visit ⟨id, parent, input, scopes⟩) := by
  conv_lhs => unfold Walk.subtree
  rw [hnode]
  simp [hkind, hchildren, hplace, WalkState.entering]

theorem Walk.subtree_expression {name : Option NodeId} {above : NodeId}
    {rest : List (Option NodeId)} (hnode : s.program.store.get? (some id) = some node)
    (hkind : node.kind = .function)
    (hchildren : node.children = name :: rest) (habove : parent = some above)
    (hplace : s.program.store.isFunctionExpression (some id) = true) :
    Walk.subtree visit (depth + 1) (some id) parent input scopes s =
      (Progress.each (fun child => Walk.subtree visit depth child (some id) input
        (s.scopes.size :: scopes)) (name :: rest) (s.entering id scopes)).andThen
        (visit ⟨id, parent, input, scopes⟩) := by
  conv_lhs => unfold Walk.subtree
  rw [hnode]
  simp [hkind, hchildren, hplace, habove, WalkState.entering]

end Level

theorem Planted.forestVisits_self (site : Site) (trees : List Planted) :
    Planted.forestVisits site site trees = trees.flatMap (Planted.visits site) := by
  cases trees <;> rfl

/-- A walk does the same as the steps for the visits to its tree. -/
theorem Simulation.walks (hsim : Simulation visit step R known) (depth : Nat) :
    Walks visit step R known depth := by
  -- On the levels, not on the tree: the walk reads the children from the store as it goes.
  induction depth with
  | zero => exact fun p _ _ _ _ _ _ _ _ hdepth => absurd hdepth (Nat.not_le_of_lt p.tree.size_pos)
  | succ depth ih =>
    intro p site ids b s hR hknown hp hmodels hdepth
    have hsize : ∀ c ∈ p.children, c.tree.size ≤ depth := fun c hc =>
      Nat.le_of_lt_succ (Nat.lt_of_lt_of_le (size_child_lt hc) hdepth)
    have hself : ∀ b' t, After R s b' t →
        (step ⟨p, site⟩ b').Follows (After R s) (visit (Visit.place ⟨p, site⟩ ids) t) :=
      fun b' t ht => (hsim.visits b' t ⟨p, site⟩ ids ht.related hknown (hp.mono ht.grew)
        (hmodels.mono ht.keeps)).imp fun _ _ => ht.trans
    have hscript : p.tree.kind ≠ .script := hp.shown.inner.kind_ne.1
    rw [visits_eq, Progress.each_append, Progress.each_singleton]
    by_cases hkind : p.tree.kind = .function
    · obtain ⟨name, params, body, hparts⟩ := hp.shown.parts hkind
      have hids : (p.record (some site.parent) none).children =
          some name.root :: [params, body].map fun c => some c.root := by
        simp [Planted.record, hparts]
      have hplace := hp.shown.isFunctionExpression hp.hosts.kind_eq
      rw [hparts] at hsize ⊢
      cases habove : site.above.holdsStatements with
      | true =>
        have hnamed : site.named p = site.below p := by simp [Site.named, hkind, habove]
        have hname : s.program.store.Stands ⟨name, site.below p⟩ := hp.below (by simp [hparts])
        rw [Walk.subtree_declaration hp.shown.get? hkind hids (by simp [hplace, habove])]
        rw [hnamed, Planted.forestVisits, Progress.each_append]
        refine Progress.Follows.andThen (R := After R s) ?_ (fun _ _ => id) hself
        have hwalk := ih name (site.below p) ids b s hR hknown hname hmodels (hsize name (by simp))
        refine hwalk.andThen (fun _ _ => id) fun b' t ht => ?_
        refine (hsim.entered ih hkind [params, body] ht.related (hp.mono ht.grew)
          (fun c hc => ⟨?_, hsize c ?_⟩) hknown (hmodels.mono ht.keeps)).imp fun _ _ => ht.trans
        · rw [hparts]
          exact List.mem_cons_of_mem _ hc
        · exact List.mem_cons_of_mem _ hc
      | false =>
        have hnamed : site.named p = site.inside p := by simp [Site.named, habove]
        rw [Walk.subtree_expression hp.shown.get? hkind hids rfl (by simp [hplace, hkind, habove])]
        rw [hnamed, Planted.forestVisits_self]
        refine Progress.Follows.andThen (R := After R s) ?_ (fun _ _ => id) hself
        exact hsim.entered ih hkind [name, params, body] hR hp
          (fun c hc => ⟨hparts ▸ hc, hsize c hc⟩) hknown hmodels
    · have hinside : site.inside p = site.below p := if_neg hkind
      have hnamed : site.named p = site.below p := by simp [Site.named, hkind, hinside]
      rw [hinside, hnamed, Planted.forestVisits_self, Walk.subtree_plain hp.shown.get? hkind]
      rw [if_neg (show (p.record (some site.parent) none).kind ≠ .script from hscript)]
      refine Progress.Follows.andThen (R := After R s) ?_ (fun _ _ => id) hself
      exact hsim.forest ih _ _ p.children hR (fun c hc => ⟨hp.below hc, hsize c hc⟩) hknown hmodels

end Simulation

end RefCheck
