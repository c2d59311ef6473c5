import RefCheck.Proofs.Check.Ownership
import RefCheck.Proofs.Check.Unseen
import RefCheck.Proofs.Script.Links
import RefCheck.Proofs.Script.Noting
import RefCheck.Proofs.Script.Yield

/-!
# What later passes rely on

The passes over a script take its nodes to have what their kinds prescribe, the functions below
nodes that hold statements to be declarations, and only functions to lack a name. The parser keeps
to that (`schema_of_parse`), and since nodes of scripts stay as they are, it is so in every store in
which a script stands, however a session goes on.
-/

namespace RefCheck

open RefCheck.Text RefCheck.Script

namespace Script

namespace NodeStore

variable {s : NodeStore} {parent : Option NodeId} {p : Planted} {above : NodeKind}

/-- The nodes below a root are those of a noted tree: every way down leads to the same kind of node
in both, and functions are declarations where they are noted. -/
def Heeds (s : NodeStore) (root : Option NodeId) (noted : Tree) : Prop :=
  ∀ path, (s.follow root path).map (fun n => (s.kind? (some n), s.isFunctionDeclaration (some n))) =
    (noted.at? path).map fun t => (some t.kind, t.isNoted)

/-- A node and the trees below it make a tree. -/
theorem heeds_node {n : Nat} {noted : Tree} {children : List Planted} (here : Bool)
    (hkind : s.kind? (some n) = some noted.kind)
    (hnoted : s.isFunctionDeclaration (some n) = noted.isNoted)
    (hroots : s.children (some n) = children.map fun c => some c.root)
    (htrees : noted.children = children.map fun c => c.tree.noted here)
    (hchildren : ∀ c ∈ children, s.Heeds (some c.root) (c.tree.noted here)) :
    s.Heeds (some n) noted := by
  intro path
  cases path with
  | nil => simp [follow, Tree.at?, hkind, hnoted]
  | cons step rest =>
    rw [follow, Tree.at?, hroots, htrees, List.getElem?_map, List.getElem?_map]
    cases hstep : children[step]? with
    | none => exact congrArg (Option.map _) (follow_none rest)
    | some c => exact hchildren c (List.mem_of_getElem? hstep) rest

/-- A shown tree is as its notes say, if those on its root say what is above it. -/
theorem Shows.heeds (h : s.Shows parent p) (habove : s.kind? parent = some above) :
    s.Heeds (some p.root) (p.tree.noted above.holdsStatements) := by
  obtain ⟨base, tree⟩ := p
  induction tree generalizing base parent above with
  | node kind text span children ih =>
    have htrees : (Planted.children ⟨base, .node kind text span children⟩).map Planted.tree =
        children := map_tree_spread _ _
    refine heeds_node kind.holdsStatements ?_ ?_ h.children_eq ?_ ?_
    · rw [h.kind_eq, kind_noted]
    · rw [h.isFunctionDeclaration habove, isNoted_noted]
    · rw [children_noted]
      conv_lhs => rw [Tree.children, ← htrees, List.map_map]
      rfl
    · intro c hc
      exact ih c.tree (spread_tree hc) h.kind_eq c.base (h.child hc)

/-- A script is as its notes say. -/
theorem heeds_script {root : Nat} {span : Span} (body : List Planted) {trees : List Tree}
    (hkind : s.kind? (some root) = some .script)
    (hroots : s.children (some root) = body.map fun c => some c.root)
    (hbody : ∀ c ∈ body, s.Shows (some root) c) (htrees : body.map Planted.tree = trees) :
    s.Heeds (some root) ((Tree.node .script "" span trees).noted false) := by
  refine heeds_node true ?_ ?_ hroots ?_ ?_
  · rw [hkind, kind_noted]
    rfl
  · rw [NodeStore.isFunctionDeclaration, hkind, isNoted_noted]
    rfl
  · rw [children_noted, Tree.children, ← htrees]
    exact List.map_map
  · exact fun c hc => (hbody c hc).heeds hkind

/-- A script that has just been laid out is as its notes say. -/
theorem heeds_plant {source : String} {tree : Tree} (h : parse source = .ok tree) (s : NodeStore)
    (input : InputId) :
    (s.plant input tree).Heeds (some (s.nextRoot tree)) (tree.noted false) := by
  obtain ⟨span, body, rfl, hbody⟩ := fits_of_parse h
  let p : Planted := ⟨s.size, .node .script "" span body⟩
  have hholds : (s.plant input p.tree).Holds p.base (p.tree.layout p.base none (some input)) := by
    rw [show s.plant input p.tree = ⟨_⟩ from congrArg NodeStore.mk (plant_nodes s input p.tree)]
    exact holds_append_self _
  obtain ⟨hroot, hbelow⟩ := holds_layout.mp hholds
  have hget : (s.plant input p.tree).get? (some p.root) = some (p.record none (some input)) := hroot
  change (s.plant input p.tree).Heeds (some p.root) _
  refine heeds_script p.children ?_ ?_ ?_ (map_tree_spread _ _)
  · rw [NodeStore.kind?, hget]
    rfl
  · rw [NodeStore.children, hget]
    rfl
  · exact shows_spread.mp ⟨hbelow, fun t ht => inner_of_fits (hbody t ht)⟩

end NodeStore

end Script

namespace Check

variable {levels : Levels} {actions : List Action}

/-- The script of an input stays as its notes say, however a session goes on. -/
theorem heeds_session {source : String} {tree : Tree} (h : parse source = .ok tree)
    {input : Input} (hmem : input ∈ (Session.after levels actions).program.inputs)
    (hsource : input.source = some source) :
    (Session.after levels actions).program.store.Heeds (some input.root) (tree.noted false) := by
  obtain ⟨plots, made, ha⟩ := Session.accounts levels actions
  obtain ⟨i, hinput⟩ := List.mem_iff_getElem?.mp hmem
  have hlt : i < plots.length := by
    rw [ha.checkable.holds.length]
    exact (List.getElem?_eq_some_iff.mp hinput).1
  have hplot := List.getElem?_eq_getElem hlt
  obtain ⟨-, -, hroot⟩ := ha.checkable.holds.input i plots[i] input hplot hinput
  have hshown := ha.checkable.holds.shown plots[i] (List.getElem_mem hlt)
  obtain ⟨span, body, rfl, -⟩ := fits_of_parse h
  -- Only scripts without a source get placeholders, so this one still has what was parsed.
  have hbody : plots[i].body.map Planted.tree = body := by
    have hstatements : input.statements = body := by
      rw [Input.statements, hsource, Option.map_some, h]
      rfl
    have hne : input.source ≠ none := by
      rw [hsource]
      exact Option.some_ne_none source
    rw [← hstatements, ← ha.body_of_source hinput hne, bodyOf, hplot]
    rfl
  rw [← hroot]
  exact NodeStore.heeds_script _ hshown.kind_eq hshown.children_eq hshown.body hbody

/-- No check stops at a name without a text. -/
theorem never_emptyName {checker : Checker}
    (hmem : checker ∈ (Session.after levels actions).checkers) (file : String) (span : Span) :
    (checker.verdict (Session.after levels actions).program).error ≠
      some (.emptyName file span) := by
  obtain ⟨plots, hheld⟩ := Session.held levels actions
  intro herror
  rw [Checker.verdict, (hheld.checks hmem).run_outline, Outline.ending] at herror
  split at herror
  · obtain ⟨m, -, hm⟩ := Option.map_eq_some_iff.mp herror
    cases hm
  · cases herror

/-- What a script that was read from a source has, and every store in which it stands: all nodes
have what their kinds prescribe, only functions have empty names, in front of their parameters, and
functions are declarations if they were read as statements. -/
structure Schema (source : String) (tree : Tree) : Prop where
  script : tree.kind = .script
  prescribed : ∀ path t, tree.at? path = some t → t.Prescribed
  unnamed : ∀ path t, tree.at? path = some t → t.kind = .name → t.text = "" →
    ∃ above function, path = above ++ [0] ∧ tree.at? above = some function ∧
      function.kind = .function
  declarations : ∃ noted, parseNoting source = some noted ∧ noted.plain = tree ∧
    (∀ (s : NodeStore) input, (s.plant input tree).Heeds (some (s.nextRoot tree)) noted) ∧
    ∀ levels actions, ∀ input ∈ (Session.after levels actions).program.inputs,
      input.source = some source →
        (Session.after levels actions).program.store.Heeds (some input.root) noted

/-- Every script that can be read has the shape that later passes rely on. However a session goes
on, no check in it stops at a name without a text. -/
theorem schema_of_parse {source : String} {tree : Tree} (h : parse source = .ok tree) :
    Schema source tree ∧
      ∀ levels actions, ∀ checker ∈ (Session.after levels actions).checkers, ∀ file span,
        (checker.verdict (Session.after levels actions).program).error ≠
          some (.emptyName file span) := by
  refine ⟨⟨script_of_parse h, fun path t => prescribed_of_parse h,
    fun path t => unnamed_of_parse h, ?_⟩, fun levels actions checker => never_emptyName⟩
  refine ⟨tree.noted false, parseNoting_of_parse h, plain_of_parse h, ?_, ?_⟩
  · exact fun s input => NodeStore.heeds_plant h s input
  · exact fun levels actions input => heeds_session h

/-- For instance the function of a label and that of a branch are declarations, and a value is
none. -/
theorem schema_of_parse_functions :
    let source := "l: function f() \x7b\x7d if (a) function () \x7b\x7d x = function () \x7b\x7d;"
    ∃ tree, parse source = .ok tree ∧
      (parseNoting source).map (fun noted =>
        (noted.nodes.filter (·.kind = .function)).map Tree.isNoted) = some [true, true, false] ∧
      Schema source tree ∧
      ∀ levels actions, ∀ checker ∈ (Session.after levels actions).checkers, ∀ file span,
        (checker.verdict (Session.after levels actions).program).error ≠
          some (.emptyName file span) := by
  intro source
  have hread : (parse source).toOption.isSome = true := by decide +kernel
  cases hparse : parse source with
  | error refusal =>
    rw [hparse] at hread
    cases hread
  | ok tree => exact ⟨tree, rfl, by decide +kernel, schema_of_parse hparse⟩

end Check

end RefCheck
