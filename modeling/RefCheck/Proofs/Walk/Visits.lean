import RefCheck.Walk.Basic
import RefCheck.Proofs.Scope.Frames

/-!
# What a walk visits

The visits to a planted tree in the order of a walk: children before their parent, the name of a
declared function outside the function, everything else of a function inside.
-/

namespace RefCheck

open RefCheck.Script

/-- Where the children of a node stand: below which node of what kind with which first child, in
which script, and inside functions that declare which names, the innermost first. -/
structure Site where
  parent : Nat
  above : NodeKind
  first : Option Nat
  isDeclared : Bool
  input : InputId
  functions : List (List Planted)

/-- What the functions around a site declare. -/
def Site.frames (site : Site) : List Frame :=
  site.functions.map fun names => ⟨names, site.input⟩

structure Visit where
  tree : Planted
  site : Site

namespace Visit

/-- The place of a visit, given the scopes of the functions around it. -/
def place (v : Visit) (ids : List Nat) : Place :=
  ⟨v.tree.root, some v.site.parent, some v.site.input, ids ++ [0]⟩

/-- Whether a name is that of a label. -/
def isLabel (v : Visit) : Bool :=
  (v.site.above = .label || v.site.above = .breakOut || v.site.above = .continueOn) &&
    v.site.first = some v.tree.root

end Visit

namespace Site

/-- Where the children of a tree stand, if they belong to the same function. -/
def below (site : Site) (p : Planted) : Site where
  parent := p.root
  above := p.tree.kind
  first := p.children.head?.map Planted.root
  isDeclared := p.tree.kind = .function && site.above.holdsStatements
  input := site.input
  functions := site.functions

/-- Where the parts of a function other than its name stand, and the children of anything else. -/
def inside (site : Site) (p : Planted) : Site :=
  if p.tree.kind = .function then
    { site.below p with functions := p.declares site.above :: site.functions }
  else site.below p

/-- Where the first child stands. The name of a declared function is outside the function. -/
def named (site : Site) (p : Planted) : Site :=
  if p.tree.kind = .function && site.above.holdsStatements then site.below p else site.inside p

end Site

namespace Script

mutual

def Tree.visits (site : Site) (base : Nat) : Tree → List Visit
  | node kind text span children =>
    let p : Planted := ⟨base, node kind text span children⟩
    forestVisits (site.named p) (site.inside p) p.below children ++ [⟨p, site⟩]

/-- The visits to trees of which the first one may stand elsewhere. -/
def Tree.forestVisits (first rest : Site) (base : Nat) : List Tree → List Visit
  | [] => []
  | t :: ts => t.visits first base ++ forestVisits rest rest (base + t.size) ts

end

namespace Planted

/-- The visits to a planted tree. -/
def visits (site : Site) (p : Planted) : List Visit := p.tree.visits site p.base

/-- The visits to trees of which the first one may stand elsewhere. -/
def forestVisits (first rest : Site) : List Planted → List Visit
  | [] => []
  | c :: cs => c.visits first ++ cs.flatMap (visits rest)

end Planted

theorem forestVisits_spread {first rest : Site} {base : Nat} {trees : List Tree} :
    Tree.forestVisits first rest base trees =
      Planted.forestVisits first rest (Planted.spread base trees) := by
  induction trees generalizing base first with
  | nil => rw [Tree.forestVisits, Planted.spread, Planted.forestVisits]
  | cons t ts ih =>
    rw [Tree.forestVisits, Planted.spread, Planted.forestVisits, ih]
    cases ts <;> rfl

theorem visits_eq (site : Site) (p : Planted) :
    p.visits site =
      Planted.forestVisits (site.named p) (site.inside p) p.children ++ [⟨p, site⟩] := by
  obtain ⟨base, kind, text, span, children⟩ := p
  rw [Planted.visits, Tree.visits, forestVisits_spread]
  rfl

/-- What passes from a visited tree to its children holds at every visit. -/
theorem forall_visits {P : Planted → Site → Prop}
    (hchildren : ∀ p site, P p site → (∀ c ∈ p.children.head?, P c (site.named p)) ∧
      ∀ c ∈ p.children.tail, P c (site.inside p))
    {p : Planted} {site : Site} (hp : P p site) : ∀ v ∈ p.visits site, P v.tree v.site := by
  obtain ⟨base, t⟩ := p
  induction t generalizing base site with
  | node kind text span children ih =>
    intro v hv
    obtain ⟨hfirst, hrest⟩ := hchildren _ site hp
    rw [visits_eq] at hv
    rcases List.mem_append.mp hv with hv | hv
    · have hsub : ∀ c ∈ Planted.children ⟨base, .node kind text span children⟩,
          c.tree ∈ children := fun c => spread_tree
      revert hfirst hrest hv hsub
      generalize Planted.children ⟨base, .node kind text span children⟩ = trees
      intro hfirst hrest hv hsub
      cases trees with
      | nil => cases hv
      | cons c rest =>
        obtain ⟨hc, hsub⟩ := List.forall_mem_cons.mp hsub
        rcases List.mem_append.mp hv with hv | hv
        · exact ih c.tree hc c.base (hfirst c rfl) v hv
        · obtain ⟨d, hd, hv⟩ := List.mem_flatMap.mp hv
          exact ih d.tree (hsub d hd) d.base (hrest d hd) v hv
    · rw [List.mem_singleton.mp hv]
      exact hp

end Script

end RefCheck
