import RefCheck.Proofs.Walk.Scripts

/-!
# Where a tree mentions names

The names in a tree with what can be said about each from the trees around it: the kind of the node
above, whether it is the name of a label or of a declared function, and which names the functions
around it declare. No ids and no tables are needed for it, and the visits of a walk come to the same
names in the same order.
-/

namespace RefCheck

open RefCheck.Script RefCheck.Text

/-- What is around a tree. -/
structure Context where
  above : NodeKind
  isFirst : Bool
  isDeclared : Bool
  input : InputId
  bound : List String

/-- A name in a tree. -/
structure Mention where
  name : String
  span : Span
  context : Context

namespace Script.Tree

mutual

/-- The names that a statement declares outside all functions in it. -/
def declaredNames (above : NodeKind) : Tree → List String
  | node kind _ _ children =>
    if kind = .var then children.map text
    else if kind = .function then
      if above.holdsStatements then (children.map text).head?.toList else []
    else if kind.isOpen then forestDeclaredNames kind children
    else []

def forestDeclaredNames (above : NodeKind) : List Tree → List String
  | [] => []
  | t :: rest => t.declaredNames above ++ forestDeclaredNames above rest

end

/-- The names that a function declares: its own if it stands in the place of a value, its
parameters, and those in its body. -/
def boundBy (above : NodeKind) (function : Tree) : List String :=
  match function.children with
  | [name, params, body] =>
    (if above.holdsStatements then [] else [name.text]) ++ params.children.map text ++
      body.declaredNames .function
  | _ => []

end Script.Tree

namespace Context

/-- What is around the children of a tree in the same function. The first of them is around
first. -/
def below (c : Context) (t : Tree) : Context where
  above := t.kind
  isFirst := true
  isDeclared := t.kind = .function && c.above.holdsStatements
  input := c.input
  bound := c.bound

def inside (c : Context) (t : Tree) : Context :=
  if t.kind = .function then { c.below t with bound := t.boundBy c.above ++ c.bound }
  else c.below t

/-- What is around the first child. -/
def named (c : Context) (t : Tree) : Context :=
  if t.kind = .function && c.above.holdsStatements then c.below t else c.inside t

/-- What is around later children. -/
def next (c : Context) : Context := { c with isFirst := false }

/-- Whether a name is that of a label. -/
def isLabel (c : Context) : Bool :=
  (c.above = .label || c.above = .breakOut || c.above = .continueOn) && c.isFirst

end Context

namespace Script.Tree

mutual

/-- The names in a tree, those below a node before its own. -/
def mentions (c : Context) : Tree → List Mention
  | node kind text span children =>
    let t := node kind text span children
    forestMentions (c.named t) (c.inside t).next children ++
      if kind = .name then [⟨text, span, c⟩] else []

def forestMentions (first rest : Context) : List Tree → List Mention
  | [] => []
  | t :: ts => t.mentions first ++ forestMentions rest rest ts

end

mutual

/-- All names in a tree are in the same input. -/
theorem input_of_mem_mentions {c : Context} {t : Tree} {m : Mention} (h : m ∈ t.mentions c) :
    m.context.input = c.input := by
  have hinside : ∀ t : Tree, (c.inside t).next.input = c.input := by
    intro t
    rw [Context.inside]
    split <;> rfl
  cases t with
  | node kind text span children =>
    rw [mentions] at h
    rcases List.mem_append.mp h with h | h
    · refine input_of_mem_forestMentions ?_ (hinside _) h
      rw [Context.named]
      split
      · rfl
      · exact hinside _
    · split at h
      · rw [List.mem_singleton.mp h]
      · cases h

theorem input_of_mem_forestMentions {first rest : Context} {trees : List Tree} {m : Mention}
    {input : InputId} (hfirst : first.input = input) (hrest : rest.input = input)
    (h : m ∈ forestMentions first rest trees) : m.context.input = input := by
  cases trees with
  | nil => cases h
  | cons t ts =>
    rw [forestMentions] at h
    rcases List.mem_append.mp h with h | h
    · exact (input_of_mem_mentions h).trans hfirst
    · exact input_of_mem_forestMentions hrest hrest h

end

end Script.Tree

namespace Visit

def context (v : Visit) : Context where
  above := v.site.above
  isFirst := v.site.first = some v.tree.root
  isDeclared := v.site.isDeclared
  input := v.site.input
  bound := v.site.functions.flatMap fun names => names.map fun q => q.tree.text

/-- What a visit mentions, if it is that of a name. -/
def mention? (v : Visit) : Option Mention :=
  if v.tree.tree.kind = .name then some ⟨v.tree.tree.text, v.tree.tree.span, v.context⟩ else none

theorem mention?_eq_some {v : Visit} {m : Mention} (h : v.mention? = some m) :
    v.tree.tree.kind = .name ∧ m = ⟨v.tree.tree.text, v.tree.tree.span, v.context⟩ := by
  rw [mention?] at h
  split at h
  · next hname => exact ⟨hname, (Option.some.inj h).symm⟩
  · cases h

end Visit

namespace Script

theorem map_text_spread (base : Nat) (trees : List Tree) :
    ((Planted.spread base trees).map fun q => q.tree.text) = trees.map Tree.text := by
  rw [← map_tree_spread base trees, List.map_map, map_tree_spread]
  rfl

mutual

theorem declaredNames_eq (above : NodeKind) (base : Nat) (t : Tree) :
    ((t.hoisted above base).map fun q => q.tree.text) = t.declaredNames above := by
  cases t with
  | node kind text span children =>
    rw [Tree.hoisted, Tree.declaredNames]
    split
    · exact map_text_spread base children
    · split
      · split
        · rw [← map_text_spread base children]
          cases Planted.spread base children <;> rfl
        · rfl
      · split
        · exact forestDeclaredNames_eq kind base children
        · rfl

theorem forestDeclaredNames_eq (above : NodeKind) (base : Nat) (trees : List Tree) :
    ((Tree.forestHoisted above base trees).map fun q => q.tree.text) =
      Tree.forestDeclaredNames above trees := by
  cases trees with
  | nil => rfl
  | cons t rest =>
    rw [Tree.forestHoisted, Tree.forestDeclaredNames, List.map_append, declaredNames_eq,
      forestDeclaredNames_eq]

end

theorem boundBy_eq (above : NodeKind) (p : Planted) :
    ((p.declares above).map fun q => q.tree.text) = p.tree.boundBy above := by
  have hbody : ∀ q : Planted, ((q.hoisted .function).map fun c => c.tree.text) =
      q.tree.declaredNames .function := fun q => declaredNames_eq _ _ _
  simp only [Planted.declares, Tree.boundBy, Planted.children]
  rcases p.tree.children with _ | ⟨name, _ | ⟨params, _ | ⟨body, _ | ⟨more, rest⟩⟩⟩⟩
  · rfl
  · rfl
  · rfl
  · simp only [Planted.spread, List.map_append, hbody, map_text_spread]
    cases above.holdsStatements <;> rfl
  · rfl

theorem spread_roots {base : Nat} {t : Tree} {trees : List Tree} {c : Planted}
    (hc : c ∈ Planted.spread (base + t.size) trees) :
    c.root ≠ Planted.root ⟨base, t⟩ := by
  have hwithin := (spread_within hc).1
  have hoffset := rootOffset_lt t
  unfold Planted.root
  dsimp only
  omega

theorem forestMentions_self (c : Context) (trees : List Tree) :
    Tree.forestMentions c c trees = trees.flatMap (Tree.mentions c) := by
  induction trees with
  | nil => rfl
  | cons t rest ih => rw [Tree.forestMentions, ih, List.flatMap_cons]

/-- The first child of a tree is around what a first child is around. -/
theorem context_named {site : Site} {p c : Planted} (h : p.children.head? = some c) :
    Visit.context ⟨c, site.named p⟩ = (Visit.context ⟨p, site⟩).named p.tree := by
  have hbelow : ∀ functions : List (List Planted),
      Visit.context ⟨c, { site.below p with functions }⟩ =
        { (Visit.context ⟨p, site⟩).below p.tree with
          bound := functions.flatMap fun names => names.map fun q => q.tree.text } := by
    intro functions
    simp [Visit.context, Site.below, Context.below, h]
  rw [Site.named, Site.inside, Context.named, Context.inside]
  have habove : (Visit.context ⟨p, site⟩).above = site.above := rfl
  rw [habove]
  split
  · exact hbelow site.functions
  · split
    · rw [hbelow, List.flatMap_cons, boundBy_eq]
      rfl
    · exact hbelow site.functions

/-- Later children are around what later children are around. -/
theorem context_inside {site : Site} {p c first : Planted} (h : p.children.head? = some first)
    (hc : c.root ≠ first.root) :
    Visit.context ⟨c, site.inside p⟩ = ((Visit.context ⟨p, site⟩).inside p.tree).next := by
  have hbelow : ∀ functions : List (List Planted),
      Visit.context ⟨c, { site.below p with functions }⟩ =
        Context.next { (Visit.context ⟨p, site⟩).below p.tree with
          bound := functions.flatMap fun names => names.map fun q => q.tree.text } := by
    intro functions
    simp [Visit.context, Site.below, Context.below, Context.next, h, hc.symm]
  rw [Site.inside, Context.inside]
  have habove : (Visit.context ⟨p, site⟩).above = site.above := rfl
  rw [habove]
  split
  · rw [hbelow, List.flatMap_cons, boundBy_eq]
    rfl
  · exact hbelow site.functions

/-- The visits to a tree come to the names in it. -/
theorem mentions_eq (p : Planted) (site : Site) :
    (p.visits site).filterMap Visit.mention? = p.tree.mentions (Visit.context ⟨p, site⟩) := by
  obtain ⟨base, t⟩ := p
  induction t generalizing base site with
  | node kind text span children ih =>
    let p : Planted := ⟨base, .node kind text span children⟩
    have hown : List.filterMap Visit.mention? [⟨p, site⟩] =
        if kind = .name then [⟨text, span, Visit.context ⟨p, site⟩⟩] else [] := by
      by_cases h : kind = .name <;> simp [Visit.mention?, p, Tree.kind, Tree.text, Tree.span, h]
    rw [visits_eq, List.filterMap_append, hown, Tree.mentions]
    refine congrArg (· ++ _) ?_
    have hmem : ∀ c ∈ p.children, ∀ site,
        (c.visits site).filterMap Visit.mention? = c.tree.mentions (Visit.context ⟨c, site⟩) :=
      fun c hc site => ih c.tree (spread_tree hc) site c.base
    have hspread : p.children = Planted.spread p.below children := rfl
    change List.filterMap Visit.mention? (Planted.forestVisits _ _ p.children) = _
    cases children with
    | nil => rw [hspread]; rfl
    | cons t ts =>
      have hhead : p.children.head? = some ⟨p.below, t⟩ := rfl
      have hfirst := hmem ⟨p.below, t⟩ (by rw [hspread]; exact List.mem_cons_self) (site.named p)
      rw [context_named hhead] at hfirst
      have hrest : ts.flatMap (Tree.mentions ((Visit.context ⟨p, site⟩).inside p.tree).next) =
          (Planted.spread (p.below + t.size) ts).flatMap fun c =>
            c.tree.mentions ((Visit.context ⟨p, site⟩).inside p.tree).next := by
        rw [← List.flatMap_map (f := Planted.tree), map_tree_spread]
      rw [Tree.forestMentions, forestMentions_self, hspread, Planted.spread, Planted.forestVisits,
        List.filterMap_append, hfirst, List.filterMap_flatMap]
      refine congr (congrArg _ rfl) (Eq.trans (List.flatMap_congr fun c hc => ?_) hrest.symm)
      rw [hmem c (by rw [hspread]; exact List.mem_cons_of_mem _ hc),
        context_inside hhead (spread_roots hc)]

theorem mem_mentions_of_visit {p : Planted} {site : Site} {v : Visit} {m : Mention}
    (hv : v ∈ p.visits site) (hm : v.mention? = some m) :
    m ∈ p.tree.mentions (Visit.context ⟨p, site⟩) := by
  rw [← mentions_eq]
  exact List.mem_filterMap.mpr ⟨v, hv, hm⟩

end Script

end RefCheck
