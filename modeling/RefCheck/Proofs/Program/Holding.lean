import RefCheck.Check.Placeholders
import RefCheck.Proofs.Script.Growth

/-!
# What a program holds

A program holds a list of plots if they are the scripts of its inputs, in order, and stand in the
store below the right roots. Whatever is added to a program adds to what it holds.
-/

namespace RefCheck

open RefCheck.Script RefCheck.Text

/-- The node above the scripts of some inputs. -/
def Script.Plot.rootRecord (plots : List Plot) (root : Nat) : Node :=
  ⟨.root, "", Span.none, none,
    (plots.filter fun plot => plot.above = root).map fun plot => some plot.root, none⟩

/-- The statements of the script of an input. -/
def Script.bodyOf (plots : List Plot) (i : InputId) : List Tree :=
  ((plots[i]?).map fun plot => plot.body.map Planted.tree).getD []

/-- A plot with further statements, if its script stands at the root. -/
def Script.Plot.grown (root : Nat) (more : List Planted) (plot : Plot) : Plot :=
  if plot.root = root then { plot with body := plot.body ++ more } else plot

section Grown

variable {root : Nat} {more : List Planted} {plot : Plot}

@[simp] theorem Script.Plot.grown_root : (plot.grown root more).root = plot.root := by
  rw [Plot.grown]
  split <;> rfl

@[simp] theorem Script.Plot.grown_above : (plot.grown root more).above = plot.above := by
  rw [Plot.grown]
  split <;> rfl

@[simp] theorem Script.Plot.grown_input : (plot.grown root more).input = plot.input := by
  rw [Plot.grown]
  split <;> rfl

theorem Script.Plot.grown_nil : Plot.grown root [] = id := by
  funext plot
  rw [Plot.grown]
  split <;> simp

theorem Script.Plot.grown_grown (others : List Planted) :
    (plot.grown root more).grown root others = plot.grown root (more ++ others) := by
  simp only [Plot.grown]
  by_cases h : plot.root = root <;> simp [h]

end Grown

namespace Program

variable {p : Program} {plots : List Plot} {plot : Plot} {root : Nat}

/-- The plots are the scripts of the inputs. -/
structure Holds (p : Program) (plots : List Plot) : Prop where
  length : plots.length = p.inputs.length
  input : ∀ (i : Nat) plot input, plots[i]? = some plot → p.inputs[i]? = some input →
    plot.input = i ∧ plot.above = rootFor input.isExtern ∧ plot.root = input.root
  shown : ∀ plot ∈ plots, p.store.ShowsScript plot
  node : ∀ root, root = externsRoot ∨ root = mainRoot →
    p.store.get? (some root) = some (Plot.rootRecord plots root)

theorem holds_empty (levels : Levels) : (empty levels).Holds [] where
  length := rfl
  input := by simp
  shown := by simp
  node := by rintro root (rfl | rfl) <;> rfl

theorem rootFor_or (isExtern : Bool) :
    rootFor isExtern = externsRoot ∨ rootFor isExtern = mainRoot := by
  cases isExtern
  · exact .inr rfl
  · exact .inl rfl

theorem Holds.spec (h : p.Holds plots) {i : Nat} (hi : plots[i]? = some plot) :
    ∃ input, p.inputs[i]? = some input ∧ plot.input = i ∧
      plot.above = rootFor input.isExtern ∧ plot.root = input.root := by
  have hlt := (List.getElem?_eq_some_iff.mp hi).1
  have hinput := List.getElem?_eq_getElem (h.length ▸ hlt)
  exact ⟨_, hinput, h.input i plot _ hi hinput⟩

theorem Holds.getElem?_input (h : p.Holds plots) (hplot : plot ∈ plots) :
    plots[plot.input]? = some plot := by
  obtain ⟨i, hi⟩ := List.mem_iff_getElem?.mp hplot
  obtain ⟨_, _, hinput, -⟩ := h.spec hi
  rw [hinput, hi]

/-- Only one script stands at a node. -/
theorem Holds.eq_of_root (h : p.Holds plots) {other : Plot} (hplot : plot ∈ plots)
    (hother : other ∈ plots) (hroot : plot.root = other.root) : plot = other := by
  have hrecord : plot.record = other.record := by
    have hnode := (h.shown plot hplot).node
    rw [hroot, (h.shown other hother).node] at hnode
    exact (Option.some.inj hnode).symm
  have hsame : plot.input = other.input := Option.some.inj (congrArg Node.input hrecord)
  have hfound := h.getElem?_input hplot
  rw [hsame, h.getElem?_input hother] at hfound
  exact (Option.some.inj hfound).symm

theorem Holds.root_lt (h : p.Holds plots) (hroot : root = externsRoot ∨ root = mainRoot) :
    root < p.store.size := (Array.getElem?_eq_some_iff.mp (h.node root hroot)).1

/-- A script is never a root. -/
theorem Holds.root_ne (h : p.Holds plots) (hplot : plot ∈ plots)
    (hroot : root = externsRoot ∨ root = mainRoot) : plot.root ≠ root := by
  rintro rfl
  have hnode := h.node _ hroot
  rw [(h.shown plot hplot).node] at hnode
  cases congrArg Node.kind (Option.some.inj hnode)

end Program

namespace Script.NodeStore

variable {s : NodeStore} {plot : Plot} {nodes : List Node} {parent child : Nat} {c : Planted}

theorem ShowsScript.hang (h : s.ShowsScript plot) (hne : plot.root ≠ parent)
    (hgrew : s.Grew (s.hang nodes parent child)) :
    (s.hang nodes parent child).ShowsScript plot where
  node := get?_hang_of_ne hne h.node
  body c hc := (h.body c hc).mono hgrew

theorem ShowsScript.hang_self (h : s.ShowsScript plot)
    (hgrew : s.Grew (s.hang nodes plot.root c.root))
    (hc : (s.hang nodes plot.root c.root).Shows (some plot.root) c) :
    (s.hang nodes plot.root c.root).ShowsScript { plot with body := plot.body ++ [c] } where
  node := by
    rw [get?_hang_parent h.node]
    simp [Plot.record]
  body d hd := by
    rcases List.mem_append.mp hd with hd | hd
    · exact (h.body d hd).mono hgrew
    · rw [List.mem_singleton.mp hd]
      exact hc

end Script.NodeStore

namespace Program

variable {p : Program} {plots : List Plot} {plot : Plot} {nodes : List Node}

/-- A program with one more input, whose script hangs below its root. -/
def withScript (p : Program) (input : Input) (nodes : List Node) : Program :=
  { p with
    store := p.store.hang nodes (rootFor input.isExtern) input.root
    inputs := p.inputs ++ [input] }

theorem Holds.grew_withScript (h : p.Holds plots) (input : Input) :
    p.store.Grew (p.withScript input nodes).store :=
  NodeStore.grew_hang (h.node _ (rootFor_or input.isExtern)) (.inr rfl)

theorem Holds.withScript (h : p.Holds plots) {input : Input}
    (hinput : plot.input = p.inputs.length) (habove : plot.above = rootFor input.isExtern)
    (hroot : plot.root = input.root)
    (hshown : (p.withScript input nodes).store.ShowsScript plot) :
    (p.withScript input nodes).Holds (plots ++ [plot]) where
  length := by simp [Program.withScript, h.length]
  input i q input' hq hinput' := by
    rw [List.getElem?_append] at hq
    simp only [Program.withScript, List.getElem?_append, ← h.length] at hinput'
    split at hq
    · next hlt =>
      rw [if_pos hlt] at hinput'
      exact h.input i q input' hq hinput'
    · next hlt =>
      rw [if_neg hlt] at hinput'
      obtain ⟨hzero, rfl⟩ := List.getElem?_eq_some_iff.mp hq
      have hi : i = plots.length := by simp at hzero; omega
      subst hi
      simp only [Nat.sub_self, List.getElem?_cons_zero, Option.some.injEq] at hinput'
      subst hinput'
      simpa [h.length] using ⟨hinput, habove, hroot⟩
  shown q hq := by
    rcases List.mem_append.mp hq with hq | hq
    · exact (h.shown q hq).hang (h.root_ne hq (rootFor_or _)) (h.grew_withScript input)
    · rw [List.mem_singleton.mp hq]
      exact hshown
  node root hr := by
    by_cases hsame : root = rootFor input.isExtern
    · subst hsame
      refine (NodeStore.get?_hang_parent (h.node _ hr)).trans ?_
      simp [Plot.rootRecord, List.filter_append, habove, hroot]
    · refine (NodeStore.get?_hang_of_ne hsame (h.node root hr)).trans ?_
      have hne : ¬ plot.above = root := fun heq => hsame (heq ▸ habove)
      simp [Plot.rootRecord, List.filter_append, hne]

/-- The plot of a script that is laid out next. -/
def nextPlot (p : Program) (isExtern : Bool) (span : Span) (body : List Tree) : Plot where
  above := rootFor isExtern
  input := p.inputs.length
  root := p.store.nextRoot (.node .script "" span body)
  span := span
  body := Planted.spread p.store.size body

theorem Holds.addParsed (h : p.Holds plots) {name source : String} {module : Option ModuleId}
    {isExtern : Bool} {span : Span} {body : List Tree}
    (hparse : parse source = .ok (.node .script "" span body)) (hbody : ∀ t ∈ body, t.Inner) :
    (p.addParsed name source module isExtern).1.Holds
      (plots ++ [p.nextPlot isExtern span body]) := by
  have habove := h.root_lt (rootFor_or isExtern)
  let tree : Tree := .node .script "" span body
  let input : Input :=
    ⟨p.inputs.length, name, module, isExtern, p.store.nextRoot tree, some source⟩
  let nodes := tree.layout p.store.size (some (rootFor isExtern)) (some p.inputs.length)
  have hadded : (p.addParsed name source module isExtern).1 = p.withScript input nodes := by
    rw [Program.addParsed_of_ok hparse]
    simp only [NodeStore.appendChild_plant habove]
    rfl
  rw [hadded]
  refine h.withScript rfl rfl rfl ?_
  have hholds : (p.withScript input nodes).store.Holds p.store.size nodes :=
    NodeStore.holds_hang habove
  obtain ⟨hnode, hbelow⟩ :=
    (NodeStore.holds_layout (p := ⟨p.store.size, tree⟩)).mp hholds
  refine ⟨hnode, ?_⟩
  have hroot : Planted.root ⟨p.store.size, tree⟩ = p.store.nextRoot tree := rfl
  exact NodeStore.shows_spread.mp ⟨hbelow, hbody⟩

theorem Holds.newExtern_eq (h : p.Holds plots) (name : String) :
    (p.newExtern name).1 = p.withScript ⟨p.inputs.length, name, none, true, p.store.size, none⟩
      [⟨.script, "", Span.none, some externsRoot, [], some p.inputs.length⟩] := by
  have habove : externsRoot < p.store.size := h.root_lt (rootFor_or true)
  rw [Program.newExtern]
  simp only [NodeStore.appendChild_push habove]
  rfl

theorem Holds.newExtern (h : p.Holds plots) (name : String) :
    (p.newExtern name).1.Holds
      (plots ++ [⟨externsRoot, p.inputs.length, p.store.size, Span.none, []⟩]) := by
  rw [h.newExtern_eq]
  refine h.withScript rfl rfl rfl ⟨?_, by simp⟩
  exact NodeStore.holds_singleton.mp (NodeStore.holds_hang (h.root_lt (rootFor_or true)))

/-- Nodes that nothing refers to change nothing. -/
theorem Holds.append (h : p.Holds plots) (nodes : List Node) :
    Holds { p with store := ⟨p.store.nodes ++ nodes.toArray⟩ } plots := by
  have hget : ∀ {id : Nat} {node : Node}, p.store.get? (some id) = some node →
      NodeStore.get? ⟨p.store.nodes ++ nodes.toArray⟩ (some id) = some node := by
    intro id node hnode
    have hnode : p.store.nodes[id]? = some node := hnode
    have hlt := (Array.getElem?_eq_some_iff.mp hnode).1
    exact (Array.getElem?_append_left hlt).trans hnode
  refine ⟨h.length, h.input, fun plot hplot => ⟨hget (h.shown plot hplot).node, fun c hc => ?_⟩,
    fun root hroot => hget (h.node root hroot)⟩
  exact ((h.shown plot hplot).body c hc).mono (NodeStore.grew_append _ _)

/-- The statement that declares a placeholder. -/
def placeholder (name : String) : Tree :=
  .node .var "" Span.none [.node .name name Span.none []]

theorem inner_placeholder (name : String) : (placeholder name).Inner :=
  .node (by decide) (by decide) nofun
    (List.forall_mem_singleton.mpr (.node (by decide) (by decide) nofun nofun))

/-- A program with a placeholder below a script. -/
def withPlaceholder (p : Program) (root : Nat) (name : String) : Program :=
  let statement : Planted := ⟨p.store.size, placeholder name⟩
  let nodes := statement.tree.layout p.store.size (some root) none
  { p with store := p.store.hang nodes root statement.root }

theorem declare_eq {h : Placeholders} {name : String} (hroot : h.root < p.store.size) :
    (h.declare p name).1 = p.withPlaceholder h.root name := by
  have hroot : @LT.lt Nat _ h.root p.store.nodes.size := hroot
  have hsize : p.store.size = p.store.nodes.size := rfl
  have hlayout : (placeholder name).layout p.store.size (some h.root) none =
      [⟨.name, name, Span.none, some (p.store.size + 1), [], none⟩,
        ⟨.var, "", Span.none, some h.root, [some p.store.size], none⟩] := rfl
  have hchild : Planted.root ⟨p.store.size, placeholder name⟩ = p.store.nodes.size + 1 := rfl
  have hstore : (h.declare p name).1.store =
      (((p.store.push (.leaf .name name Span.none none)).push
        (.leaf .var "" Span.none none)).appendChild
          (some (p.store.nodes.size + 1)) (some p.store.nodes.size)).appendChild (some h.root)
            (some (p.store.nodes.size + 1)) := by
    simp [Placeholders.declare, NodeStore.pushWith, NodeStore.push, NodeStore.size]
  refine congrArg (fun store => { p with store }) ?_
  change (h.declare p name).1.store = _
  rw [hstore, hlayout, hchild]
  apply NodeStore.ext_nodes
  intro id
  rw [NodeStore.getElem?_appendChild (by omega), NodeStore.getElem?_appendChild (by omega),
    NodeStore.getElem?_hang, NodeStore.push, NodeStore.push, Array.getElem?_push,
    Array.getElem?_push, Array.size_push, Array.getElem?_append]
  by_cases hlt : id < p.store.nodes.size
  · simp only [if_pos hlt, if_neg (Nat.ne_of_lt hlt), if_neg (Nat.ne_of_gt hlt),
      if_neg (show ¬ p.store.nodes.size + 1 = id by omega),
      if_neg (show ¬ id = p.store.nodes.size + 1 by omega)]
  · have hne : ¬ h.root = id :=
      Nat.ne_of_lt (Nat.lt_of_lt_of_le hroot (Nat.le_of_not_lt hlt))
    rw [if_neg hne, if_neg hne, if_neg hlt]
    by_cases hname : id = p.store.nodes.size
    · subst hname
      simp [Node.leaf, hsize]
    · by_cases hvar : id = p.store.nodes.size + 1
      · subst hvar
        simp [Node.leaf, hsize]
      · obtain ⟨k, rfl⟩ : ∃ k, id = p.store.nodes.size + 2 + k :=
          ⟨id - (p.store.nodes.size + 2), by omega⟩
        have hfar : p.store.nodes.size + 2 + k - p.store.nodes.size = k + 2 := by omega
        simp [hfar, hname, hvar, Ne.symm hname, Ne.symm hvar]
        omega

theorem rootRecord_map_grown {root above : Nat} {more : List Planted} :
    Plot.rootRecord (plots.map (Plot.grown root more)) above = Plot.rootRecord plots above := by
  simp [Plot.rootRecord, List.filter_map, Function.comp_def]

theorem Holds.withPlaceholder (h : p.Holds plots) (hplot : plot ∈ plots) (name : String) :
    (p.withPlaceholder plot.root name).Holds
      (plots.map (Plot.grown plot.root [⟨p.store.size, placeholder name⟩])) := by
  have hlt : plot.root < p.store.size :=
    (Array.getElem?_eq_some_iff.mp (h.shown plot hplot).node).1
  have hgrew : p.store.Grew (p.withPlaceholder plot.root name).store :=
    NodeStore.grew_hang (h.shown plot hplot).node (.inl rfl)
  have hshown : (p.withPlaceholder plot.root name).store.Shows (some plot.root)
      ⟨p.store.size, placeholder name⟩ :=
    ⟨NodeStore.holds_hang hlt, inner_placeholder name⟩
  refine ⟨by rw [List.length_map]; exact h.length, fun i q input hq hinput => ?_, fun q hq => ?_,
    fun root hroot => ?_⟩
  · rw [List.getElem?_map] at hq
    obtain ⟨old, hold, rfl⟩ := Option.map_eq_some_iff.mp hq
    simpa using h.input i old input hold hinput
  · obtain ⟨old, hold, rfl⟩ := List.mem_map.mp hq
    by_cases hsame : old.root = plot.root
    · have hsame : old = plot := h.eq_of_root hold hplot hsame
      subst hsame
      rw [Plot.grown, if_pos rfl]
      exact (h.shown old hold).hang_self (c := ⟨p.store.size, placeholder name⟩) hgrew hshown
    · rw [Plot.grown, if_neg hsame]
      exact (h.shown old hold).hang hsame hgrew
  · rw [rootRecord_map_grown]
    exact NodeStore.get?_hang_of_ne (h.root_ne hplot hroot).symm (h.node root hroot)

end Program

end RefCheck
