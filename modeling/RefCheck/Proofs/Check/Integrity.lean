import RefCheck.Proofs.Check.Sessions
import RefCheck.Proofs.Script.Links

/-!
# How a program hangs together

However a session goes on, inputs are numbered in order, their scripts are what the two roots list,
every node below a root is reached in one way and goes back up that way, and going up ends at the
script that the way down goes through. Sources that cannot be parsed leave loose nodes, and checks
add statements while they walk, but both leave the store linked.
-/

namespace RefCheck

open RefCheck.Text RefCheck.Script

namespace Program

variable {p : Program} {plots : List Plot}

/-- The nodes above all scripts. -/
def roots : List NodeId := [externsRoot, mainRoot]

theorem mem_roots {root : Nat} : root ∈ roots ↔ root = externsRoot ∨ root = mainRoot := by
  simp [roots]

theorem linked_empty (levels : Levels) : (empty levels).store.Linked := by
  intro id node hnode
  have hlt : id < 2 := NodeStore.lt_of_get? hnode
  obtain rfl | rfl : id = 0 ∨ id = 1 := by omega
  all_goals
    obtain rfl := Option.some.inj hnode
    exact ⟨nofun, List.nodup_nil⟩

theorem linked_newExtern (h : p.store.Linked) (hroot : externsRoot < p.store.size)
    (name : String) : (p.newExtern name).1.store.Linked := by
  have hstore : (p.newExtern name).1.store =
      p.store.hang
        ((Script.Tree.node .script "" Span.none []).layout p.store.size (some externsRoot)
          (some p.inputs.length))
        externsRoot (p.store.nextRoot (.node .script "" Span.none [])) :=
    NodeStore.appendChild_push hroot
  rw [hstore]
  exact h.hang hroot

theorem linked_addParsed (h : p.store.Linked) (hp : p.Holds plots) (name source : String)
    (module : Option ModuleId) (isExtern : Bool) :
    (p.addParsed name source module isExtern).1.store.Linked := by
  cases hparse : parse source with
  | error refusal =>
    rw [addParsed_of_error hparse]
    exact h.strew refusal.loose
  | ok tree =>
    have habove := hp.root_lt (rootFor_or isExtern)
    rw [addParsed_of_ok hparse]
    simp only [NodeStore.appendChild_plant habove]
    exact h.hang habove

theorem linked_edit (h : p.store.Linked) (hp : p.Holds plots) (e : Edit) :
    (p.edit e).store.Linked := by
  cases e with
  | addModule name => exact h
  | addDependency source target => exact h
  | addExtern name source => exact linked_addParsed h hp name source none true
  | addSource name source module => exact linked_addParsed h hp name source module false
  | newExtern name => exact linked_newExtern h (hp.root_lt (.inl rfl)) name

/-- Each input has its place for its id. -/
def Numbered (p : Program) : Prop := ∀ (i : Nat) input, p.input? i = some input → input.id = i

theorem Numbered.append (h : p.Numbered) {q : Program} {input : Input}
    (hinputs : q.inputs = p.inputs ++ [input]) (hid : input.id = p.inputs.length) :
    q.Numbered := by
  intro i other hother
  rw [input?, hinputs, List.getElem?_append] at hother
  split at hother
  · exact h i other hother
  · next hge =>
    obtain ⟨hzero, rfl⟩ : i - p.inputs.length = 0 ∧ input = other := by
      simpa [List.getElem?_singleton] using hother
    have heq : p.inputs.length = i := by omega
    exact hid.trans heq

theorem numbered_addParsed (h : p.Numbered) (name source : String) (module : Option ModuleId)
    (isExtern : Bool) : (p.addParsed name source module isExtern).1.Numbered := by
  cases hparse : parse source with
  | error refusal =>
    rw [addParsed_of_error hparse]
    exact h
  | ok tree =>
    rw [addParsed_of_ok hparse]
    exact h.append rfl rfl

theorem numbered_edit (h : p.Numbered) (e : Edit) : (p.edit e).Numbered := by
  cases e with
  | addModule name => exact h
  | addDependency source target => exact h
  | addExtern name source => exact numbered_addParsed h name source none true
  | addSource name source module => exact numbered_addParsed h name source module false
  | newExtern name => exact h.append rfl rfl

section Ways

variable {root step n : Nat} {rest : List Nat}

theorem Holds.children_rootFor (hp : p.Holds plots) (isExtern : Bool) :
    p.store.children (some (rootFor isExtern)) =
      (plots.filter fun plot => plot.above = rootFor isExtern).map fun plot => some plot.root := by
  rw [NodeStore.children, hp.node _ (rootFor_or isExtern)]
  rfl

/-- The roots list the scripts of the inputs. -/
theorem Holds.children_inputs (hp : p.Holds plots) (isExtern : Bool) :
    p.store.children (some (rootFor isExtern)) =
      (p.inputs.filter fun input => input.isExtern = isExtern).map fun input =>
        some input.root := by
  have hsame : plots.map (fun plot => (plot.above, plot.root)) =
      p.inputs.map fun input => (rootFor input.isExtern, input.root) := by
    apply List.ext_getElem
    · simp [hp.length]
    · intro i hi hi'
      simp only [List.length_map] at hi hi'
      obtain ⟨-, habove, hroot⟩ := hp.input i plots[i] p.inputs[i]
        (List.getElem?_eq_getElem hi) (List.getElem?_eq_getElem hi')
      simp [habove, hroot]
  have hside : ∀ input : Input, decide (rootFor input.isExtern = rootFor isExtern) =
      decide (input.isExtern = isExtern) := by
    intro input
    cases input.isExtern <;> cases isExtern <;> rfl
  calc p.store.children (some (rootFor isExtern))
    _ = ((plots.map fun plot => (plot.above, plot.root)).filter fun pair =>
          pair.1 = rootFor isExtern).map fun pair => some pair.2 := by
      rw [hp.children_rootFor, List.filter_map, List.map_map]
      rfl
    _ = ((p.inputs.map fun input => (rootFor input.isExtern, input.root)).filter fun pair =>
          pair.1 = rootFor isExtern).map fun pair => some pair.2 := by rw [hsame]
    _ = _ := by
      rw [List.filter_map, List.map_map]
      simp only [Function.comp_def, hside]

/-- What the first step of a way down leads to is the script of an input. -/
theorem Holds.script_of_step (hp : p.Holds plots) (hroot : root ∈ roots)
    (h : p.store.follow (some root) [step] = some n) : ∃ plot ∈ plots, plot.root = n := by
  obtain ⟨isExtern, rfl⟩ : ∃ isExtern, rootFor isExtern = root := by
    rcases mem_roots.mp hroot with rfl | rfl
    · exact ⟨true, rfl⟩
    · exact ⟨false, rfl⟩
  have hlisted : (p.store.children (some (rootFor isExtern)))[step]?.join = some n := h
  rw [hp.children_rootFor] at hlisted
  have hmem := List.mem_of_getElem? (Option.join_eq_some_iff.mp hlisted)
  obtain ⟨plot, hplot, hn⟩ := List.mem_map.mp hmem
  exact ⟨plot, (List.mem_filter.mp hplot).1, Option.some.inj hn⟩

/-- A node on a way down is the script that the way goes through, or stands in it. -/
theorem Holds.on_way (hp : p.Holds plots) (hroot : root ∈ roots)
    (h : p.store.follow (some root) (step :: rest) = some n) :
    ∃ plot ∈ plots, p.store.follow (some root) [step] = some plot.root ∧
      (rest = [] ∧ n = plot.root ∨
        ∃ v, p.store.Stands v ∧ v.site.input = plot.input ∧ v.tree.root = n) := by
  induction rest using List.reverseRecOn generalizing n with
  | nil =>
    obtain ⟨plot, hplot, rfl⟩ := hp.script_of_step hroot h
    exact ⟨plot, hplot, h, .inl ⟨rfl, rfl⟩⟩
  | append_singleton front last ih =>
    rw [← List.cons_append, NodeStore.follow_concat] at h
    obtain ⟨above, node, habove, hnode, hlisted⟩ := NodeStore.mem_children_of_step h
    have hmem : some n ∈ p.store.children (some above) := by
      rw [NodeStore.children, ← habove, hnode]
      exact List.mem_of_getElem? hlisted
    obtain ⟨plot, hplot, hscript, ⟨-, rfl⟩ | ⟨v, hv, hinput, rfl⟩⟩ := ih habove
    · have hshown := hp.shown plot hplot
      rw [hshown.children_eq] at hmem
      obtain ⟨c, hc, hn⟩ := List.mem_map.mp hmem
      exact ⟨plot, hplot, hscript,
        .inr ⟨⟨c, plot.site⟩, hshown.stands hc, rfl, Option.some.inj hn⟩⟩
    · rw [hv.shown.children_eq] at hmem
      obtain ⟨c, hc, hn⟩ := List.mem_map.mp hmem
      exact ⟨plot, hplot, hscript,
        .inr ⟨⟨c, v.site.below v.tree⟩, hv.below hc, hinput, Option.some.inj hn⟩⟩

theorem inputOf_script {s : NodeStore} {plot : Plot} (h : s.ShowsScript plot) :
    s.inputOf (some plot.root) = some plot.input := by
  rw [NodeStore.inputOf, NodeStore.inputWithin, h.node]
  exact if_pos rfl

/-- The input of a node is that of the script that the way down goes through. -/
theorem Holds.inputOf_way (hp : p.Holds plots) (hroot : root ∈ roots)
    (h : p.store.follow (some root) (step :: rest) = some n) :
    ∃ plot ∈ plots, p.store.follow (some root) [step] = some plot.root ∧
      p.store.inputOf (some n) = some plot.input := by
  obtain ⟨plot, hplot, hscript, hn⟩ := hp.on_way hroot h
  refine ⟨plot, hplot, hscript, ?_⟩
  rcases hn with ⟨-, rfl⟩ | ⟨v, hv, hsite, rfl⟩
  · exact inputOf_script (hp.shown plot hplot)
  · rw [hv.inputOf, hsite]

/-- Going up from a node ends at the script that the way down goes through. -/
theorem Holds.inputOf_on_way (hp : p.Holds plots) (hroot : root ∈ roots)
    (h : p.store.follow (some root) (step :: rest) = some n) :
    ∃ i input, p.input? i = some input ∧
      p.store.follow (some root) [step] = some input.root ∧
      p.store.inputOf (some n) = some i ∧ p.store.Ascends (some n) (some i) := by
  obtain ⟨plot, hplot, hscript, hfound⟩ := hp.inputOf_way hroot h
  obtain ⟨input, hinput, -, -, hsame⟩ := hp.spec (hp.getElem?_input hplot)
  exact ⟨plot.input, input, hinput, hsame ▸ hscript, hfound,
    NodeStore.ascends_of_inputWithin hfound⟩

theorem Holds.root_spec (hp : p.Holds plots) (hroot : root ∈ roots) :
    p.store.parent (some root) = none ∧ p.store.inputOf (some root) = none ∧
      p.store.Ascends (some root) none := by
  have hnode := hp.node root (mem_roots.mp hroot)
  have hparent : (Plot.rootRecord plots root).parent = none := rfl
  refine ⟨?_, ?_, ?_⟩
  · rw [NodeStore.parent, hnode]
    rfl
  · rw [NodeStore.inputOf, NodeStore.inputWithin, hnode]
    change p.store.inputWithin p.store.size none = none
    cases p.store.size <;> rfl
  · exact .up hnode (by simp [Plot.rootRecord]) (hparent ▸ .outside rfl)

end Ways

end Program

namespace Check

variable {p : Program} {plots : List Plot} {s : Session}

/-- Mending leaves a store linked. -/
theorem linked_mend {repairs : Repairs} (h : p.store.Linked)
    (hroot : Program.externsRoot < p.store.size)
    (hhost : ∀ host ∈ repairs, host.root < p.store.size) (names : List String) :
    (mend (p, repairs) names).1.store.Linked := by
  have hsome : ∀ (names : List String) (p : Program) (host : Placeholders), p.store.Linked →
      host.root < p.store.size → (mend (p, some host) names).1.store.Linked := by
    intro names
    induction names with
    | nil => exact fun p host h _ => h
    | cons name rest ih =>
      intro p host h hlt
      have hone : mendOne (p, some host) name = (p.withPlaceholder host.root name, some host) :=
        congrArg (·, some host) (Program.declare_eq hlt)
      rw [mend, List.foldl_cons, hone]
      refine ih _ host (h.hang hlt) (Nat.lt_of_lt_of_le hlt ?_)
      rw [Program.withPlaceholder, NodeStore.size_hang]
      exact Nat.le_add_right _ _
  cases repairs with
  | some host => exact hsome names p host h (hhost host rfl)
  | none =>
    cases names with
    | nil => exact h
    | cons name rest =>
      rw [mend_none]
      refine hsome _ _ _ (Program.linked_newExtern h hroot _) ?_
      simp [Program.newExtern, NodeStore.appendChild_push hroot, NodeStore.size_hang]

theorem numbered_mend {repairs : Repairs} (h : p.Numbered) (hready : Ready p plots repairs)
    (names : List String) : (mend (p, repairs) names).1.Numbered := by
  rcases mend_inputs hready.holds hready.hosted names with ⟨-, hinputs⟩ | ⟨-, -, hinputs⟩
  · intro i input hinput
    exact h i input (by rwa [Program.input?, hinputs] at hinput)
  · exact h.append hinputs rfl

/-- What holds of the nodes and inputs of every session. -/
structure Session.Formed (s : Session) (plots : List Plot) : Prop extends s.Held plots where
  linked : s.program.store.Linked
  numbered : s.program.Numbered

namespace Session.Formed

theorem start (levels : Levels) : (Session.start levels).Formed [] where
  toHeld := .start levels
  linked := Program.linked_empty levels
  numbered := nofun

theorem act (h : s.Formed plots) (action : Action) : ∃ after, (s.act action).Formed after := by
  obtain ⟨after, hafter⟩ := h.toHeld.act action
  suffices hkept : (s.act action).program.store.Linked ∧ (s.act action).program.Numbered from
    ⟨after, hafter, hkept.1, hkept.2⟩
  cases action with
  | edit e =>
    exact ⟨Program.linked_edit h.linked h.checkable.holds e, Program.numbered_edit h.numbered e⟩
  | join sanity => exact ⟨h.linked, h.numbered⟩
  | check i =>
    rw [Session.act]
    cases hchecker : s.checkers[i]? with
    | none => exact ⟨h.linked, h.numbered⟩
    | some checker =>
      have hchecks := h.checks (List.mem_of_getElem? hchecker)
      obtain ⟨bag, hprogram, -⟩ := hchecks.run_mends checker.sanity
      dsimp only [Checker.verdict]
      rw [hprogram]
      refine ⟨linked_mend h.linked (hchecks.holds.root_lt (.inl rfl)) ?_ _,
        numbered_mend h.numbered hchecks.toReady _⟩
      intro host hhost
      obtain ⟨plot, hplot, hhosts⟩ := hchecks.hosted host hhost
      rw [← hhosts.root]
      exact NodeStore.lt_of_get? (hchecks.holds.shown plot hplot).node

theorem acts (h : s.Formed plots) (actions : List Action) :
    ∃ after, (actions.foldl Session.act s).Formed after := by
  induction actions generalizing s plots with
  | nil => exact ⟨plots, h⟩
  | cons action rest ih =>
    obtain ⟨mid, hmid⟩ := h.act action
    exact ih hmid

end Session.Formed

theorem Session.formed (levels : Levels) (actions : List Action) :
    ∃ plots, (Session.after levels actions).Formed plots :=
  (Formed.start levels).acts actions

/-- In every session: each input has its place for its id, and its script carries that id; the roots
list the scripts of the externs and of the other inputs, in order; a node below a root is reached in
one way only and has the node that lists it for its parent; and going up from it ends at the script
that the way down goes through, or above all scripts if there is no such script. -/
theorem session_integrity (levels : Levels) (actions : List Action) :
    let p := (Session.after levels actions).program
    let s := p.store
    (∀ i input, p.input? i = some input → input.id = i ∧ ∃ node,
      s.get? (some input.root) = some node ∧ node.kind = .script ∧ node.input = some i) ∧
    (∀ isExtern, s.children (some (Program.rootFor isExtern)) =
      (p.inputs.filter fun input => input.isExtern = isExtern).map fun input =>
        some input.root) ∧
    ∀ root ∈ Program.roots, ∀ path n, s.follow (some root) path = some n →
      (∀ root' ∈ Program.roots, ∀ path', s.follow (some root') path' = some n →
        root = root' ∧ path = path') ∧
      (∀ above, some n ∈ s.children above → s.parent (some n) = above) ∧
      match path with
      | [] => s.inputOf (some n) = none ∧ s.Ascends (some n) none
      | step :: _ => ∃ i input, p.input? i = some input ∧
          s.follow (some root) [step] = some input.root ∧
          s.inputOf (some n) = some i ∧ s.Ascends (some n) (some i) := by
  obtain ⟨plots, hs⟩ := Session.formed levels actions
  have hp := hs.checkable.holds
  refine ⟨?_, hp.children_inputs, ?_⟩
  · intro i input hinput
    have hlt := (List.getElem?_eq_some_iff.mp hinput).1
    have hplot := List.getElem?_eq_getElem (hp.length ▸ hlt)
    obtain ⟨hid, -, hroot⟩ := hp.input i _ input hplot hinput
    have hnode := (hp.shown _ (List.mem_of_getElem? hplot)).node
    rw [hroot] at hnode
    exact ⟨hs.numbered i input hinput, _, hnode, rfl, congrArg some hid⟩
  · intro root hroot path n hn
    obtain ⟨hparent, hnone, hascends⟩ := hp.root_spec hroot
    refine ⟨?_, ?_, ?_⟩
    · intro root' hroot' path' hn'
      exact hs.linked.follow_inj hparent (hp.root_spec hroot').1 hn hn'
    · intro above hmem
      exact hs.linked.parent_of_mem hmem
    · cases path with
      | nil =>
        obtain rfl := Option.some.inj hn
        exact ⟨hnone, hascends⟩
      | cons step rest => exact hp.inputOf_on_way hroot hn

end Check

end RefCheck
