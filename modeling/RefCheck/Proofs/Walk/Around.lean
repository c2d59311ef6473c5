import RefCheck.Proofs.Scope.Declaring
import RefCheck.Proofs.Walk.Scripts

/-!
# The functions around a node

The name of a declared function is outside the function, everything else of a function is inside.
Which functions are around a node is said of the store here, and what a visit says of the functions
around it is shown to be about just these.
-/

namespace RefCheck

open RefCheck.Script

namespace Script.NodeStore

/-- The functions around a node, the innermost first. -/
inductive Around (s : NodeStore) : NodeId → List NodeId → Prop
  | script {n q} : s.parent (some n) = some q → s.kind? (some q) = some .script → Around s n []
  | plain {n q kind functions} : s.parent (some n) = some q → s.kind? (some q) = some kind →
      kind ≠ .script → kind ≠ .function → Around s q functions → Around s n functions
  | declaredName {n f functions} : s.isFunctionDeclaration (some f) →
      s.functionName (some f) = some n → Around s f functions → Around s n functions
  | ownName {n f functions} : s.isFunctionExpression (some f) →
      s.functionName (some f) = some n → Around s f functions → Around s n (f :: functions)
  | part {n f functions} : s.kind? (some f) = some .function →
      s.functionParams (some f) = some n ∨ s.functionBody (some f) = some n →
      Around s f functions → Around s n (f :: functions)

/-- The names are those that a function in the script of an input declares. -/
def Introduces (s : NodeStore) (input : InputId) (names : List Planted) (f : NodeId) : Prop :=
  s.Lists (s.DeclaredBy f) names ∧ s.inputOf (some f) = some input

/-- A tree stands at a site, inside functions that declare what the site says. -/
structure Surrounded (s : NodeStore) (p : Planted) (site : Site) : Prop where
  stands : s.Stands ⟨p, site⟩
  layered : p.tree.Layered
  around : ∃ functions, s.Around p.root functions ∧
    List.Forall₂ (s.Introduces site.input) site.functions functions

variable {s : NodeStore} {p c : Planted} {site : Site}

theorem Surrounded.child_layered (h : s.Surrounded p site) (hc : c ∈ p.children) :
    c.tree.Layered := h.layered.children c.tree (spread_tree hc)

theorem Surrounded.plain (h : s.Surrounded p site) (hkind : p.tree.kind ≠ .function)
    (hc : c ∈ p.children) : s.Surrounded c (site.below p) where
  stands := h.stands.below hc
  layered := h.child_layered hc
  around := by
    obtain ⟨functions, haround, hintroduces⟩ := h.around
    refine ⟨functions, ?_, hintroduces⟩
    exact .plain (h.stands.shown.child hc).parent_eq h.stands.shown.kind_eq
      h.stands.shown.inner.kind_ne.1 hkind haround

theorem Surrounded.inside (h : s.Surrounded p site) (hkind : p.tree.kind = .function)
    (hc : c ∈ p.children)
    (haround : ∀ functions, s.Around p.root functions → s.Around c.root (p.root :: functions)) :
    s.Surrounded c (site.inside p) where
  stands := h.stands.inside hc
  layered := h.child_layered hc
  around := by
    obtain ⟨functions, hfunctions, hintroduces⟩ := h.around
    have hinside : site.inside p =
        { site.below p with functions := p.declares site.above :: site.functions } := if_pos hkind
    have hlists := h.stands.shown.lists_declares h.layered hkind h.stands.hosts.kind_eq
    rw [hinside]
    exact ⟨_, haround functions hfunctions, .cons ⟨hlists, h.stands.inputOf⟩ hintroduces⟩

theorem Surrounded.children (h : s.Surrounded p site) :
    (∀ c ∈ p.children.head?, s.Surrounded c (site.named p)) ∧
      ∀ c ∈ p.children.tail, s.Surrounded c (site.inside p) := by
  by_cases hkind : p.tree.kind = .function
  · obtain ⟨name, params, body, hparts⟩ := h.stands.shown.parts hkind
    obtain ⟨hname, hparams, hbody⟩ := h.stands.shown.functionName_eq hparts
    have hplace := h.stands.shown.isFunctionDeclaration h.stands.hosts.kind_eq
    have hvalue := h.stands.shown.isFunctionExpression h.stands.hosts.kind_eq
    have hmem : name ∈ p.children ∧ params ∈ p.children ∧ body ∈ p.children := by simp [hparts]
    constructor
    · intro c hc
      obtain rfl : name = c := by simpa [hparts] using hc
      cases habove : site.above.holdsStatements with
      | true =>
        have hnamed : site.named p = site.below p := by simp [Site.named, hkind, habove]
        obtain ⟨functions, haround, hintroduces⟩ := h.around
        rw [hnamed]
        refine ⟨h.stands.below hmem.1, h.child_layered hmem.1, functions, ?_, hintroduces⟩
        exact .declaredName (by simp [hplace, hkind, habove]) hname haround
      | false =>
        have hnamed : site.named p = site.inside p := by simp [Site.named, habove]
        rw [hnamed]
        refine h.inside hkind hmem.1 fun functions haround => ?_
        exact .ownName (by simp [hvalue, hkind, habove]) hname haround
    · intro c hc
      have hpart : c = params ∨ c = body := by simpa [hparts] using hc
      rcases hpart with rfl | rfl
      · exact h.inside hkind hmem.2.1 fun _ => .part (hkind ▸ h.stands.shown.kind_eq) (.inl hparams)
      · exact h.inside hkind hmem.2.2 fun _ => .part (hkind ▸ h.stands.shown.kind_eq) (.inr hbody)
  · have hinside : site.inside p = site.below p := if_neg hkind
    have hnamed : site.named p = site.below p := by simp [Site.named, hkind, hinside]
    rw [hinside, hnamed]
    exact ⟨fun c hc => h.plain hkind (List.mem_of_mem_head? hc),
      fun c hc => h.plain hkind (List.mem_of_mem_tail hc)⟩

/-- Every visit to a script is inside the functions that it says. -/
theorem ShowsScript.surrounded {plot : Plot} (h : s.ShowsScript plot)
    (hlayered : ∀ c ∈ plot.body, c.tree.Layered) :
    ∀ v ∈ plot.visits, s.Surrounded v.tree v.site := by
  intro v hv
  obtain ⟨c, hc, hv⟩ := List.mem_flatMap.mp hv
  refine forall_visits (fun p site hp => hp.children) ?_ v hv
  refine ⟨h.stands hc, hlayered c hc, [], ?_, .nil⟩
  exact .script (h.body c hc).parent_eq h.kind_eq

end Script.NodeStore

end RefCheck
