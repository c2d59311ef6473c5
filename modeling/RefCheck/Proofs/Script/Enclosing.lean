import RefCheck.Proofs.Script.Postorder

/-!
# Functions around nodes

A function is around what stands in its parameters or its body, and around its name if it is an
expression. Where the links agree, the functions around a node are around each other.
-/

namespace RefCheck.Script.NodeStore

variable {s : NodeStore} {n m c f g : NodeId} {functions : List NodeId}

/-- The parts of a function that stand in its own scope. -/
def Inner (s : NodeStore) (f c : NodeId) : Prop :=
  s.functionParams (some f) = some c ∨ s.functionBody (some f) = some c ∨
    s.isFunctionExpression (some f) = true ∧ s.functionName (some f) = some c

/-- A function is around a node that stands at or below one of these parts. -/
def Encloses (s : NodeStore) (f n : NodeId) : Prop :=
  s.kind? (some f) = some .function ∧ ∃ c, s.Inner f c ∧ s.Above c n

theorem Inner.listed (h : s.Inner f c) : some c ∈ s.children (some f) := by
  rcases h with h | h | ⟨-, h⟩
  all_goals exact List.mem_of_getElem? (Option.join_eq_some_iff.mp h)

theorem inner_iff {name params body : NodeId}
    (hparts : s.children (some f) = [some name, some params, some body]) :
    s.Inner f c ↔ c = params ∨ c = body ∨ s.isFunctionExpression (some f) = true ∧ c = name := by
  rw [Inner, functionParams, functionBody, functionName, hparts]
  simp only [List.getElem?_cons_zero, List.getElem?_cons_succ, Option.join_some, Option.some_inj,
    eq_comm]

/-- The name of a declared function is not a part inside it. -/
theorem Linked.not_inner_name (h : s.Linked) (hf : s.Anchored f) {name params body : NodeId}
    (hparts : s.children (some f) = [some name, some params, some body])
    (hplace : s.isFunctionExpression (some f) = false) : ¬s.Inner f name := by
  have happart := h.apart_listed hf
  rw [hparts, List.pairwise_cons] at happart
  rw [inner_iff hparts, hplace]
  rintro (rfl | rfl | ⟨hfalse, -⟩)
  · exact happart.1 _ (by simp) name rfl name rfl name (.refl name) (.refl name)
  · exact happart.1 _ (by simp) name rfl name rfl name (.refl name) (.refl name)
  · cases hfalse

theorem Encloses.above (h : s.Encloses f n) : s.Above f n := by
  obtain ⟨-, c, hc, habove⟩ := h
  exact .head hc.listed habove

theorem Encloses.below (h : s.Encloses f n) (hm : s.Above n m) : s.Encloses f m := by
  obtain ⟨hkind, c, hc, habove⟩ := h
  exact ⟨hkind, c, hc, habove.trans hm⟩

/-- Around a listed node are the functions around the node that lists it, and that one itself if it
is a function and the listed node is one of its inner parts. -/
theorem Linked.encloses_listed (h : s.Linked) (hc : some c ∈ s.children (some n)) :
    s.Encloses f c ↔ s.Encloses f n ∨ f = n ∧ s.kind? (some n) = some .function ∧ s.Inner n c := by
  constructor
  · rintro ⟨hkind, d, hd, habove⟩
    cases habove with
    | refl =>
      have hsame : some n = some f := (h.parent_of_mem hc).symm.trans (h.parent_of_mem hd.listed)
      obtain rfl := Option.some.inj hsame
      exact .inr ⟨rfl, hkind, hd⟩
    | @tail m _ habove hlisted =>
      have hsame : some n = some m := (h.parent_of_mem hc).symm.trans (h.parent_of_mem hlisted)
      obtain rfl := Option.some.inj hsame
      exact .inl ⟨hkind, d, hd, habove⟩
  · rintro (hf | ⟨rfl, hkind, hinner⟩)
    · exact hf.below (.single hc)
    · exact ⟨hkind, c, hinner, .refl c⟩

theorem Linked.not_encloses_self (h : s.Linked) (hn : s.Anchored n) : ¬s.Encloses n n := by
  rintro ⟨-, c, hc, hback⟩
  exact h.not_above hn hc.listed hback

theorem Linked.not_encloses_of_free (h : s.Linked) (hn : s.parent (some n) = none) :
    ¬s.Encloses f n := by
  intro hf
  rcases Relation.ReflTransGen.cases_tail hf.above with rfl | ⟨m, -, hlisted⟩
  · obtain ⟨-, c, hc, habove⟩ := hf
    rcases Relation.ReflTransGen.cases_tail habove with rfl | ⟨m, -, hlisted⟩
    · cases hn.symm.trans (h.parent_of_mem hc.listed)
    · cases hn.symm.trans (h.parent_of_mem hlisted)
  · cases hn.symm.trans (h.parent_of_mem hlisted)

/-- These are the functions around a node, the nearest first. -/
structure Within (s : NodeStore) (n : NodeId) (functions : List NodeId) : Prop where
  mem : ∀ f, f ∈ functions ↔ s.Encloses f n
  nested : functions.Pairwise fun inner outer => s.Encloses outer inner
  distinct : functions.Nodup

namespace Linked

theorem within_free (h : s.Linked) (hn : s.parent (some n) = none) : s.Within n [] where
  mem f := by
    constructor
    · intro hf
      cases hf
    · intro hf
      exact absurd hf (h.not_encloses_of_free hn)
  nested := .nil
  distinct := .nil

/-- Outside the inner parts of a function there is nothing more around a node than around the one
that lists it. -/
theorem within_listed (h : s.Linked) (hn : s.Within n functions)
    (hc : some c ∈ s.children (some n))
    (houter : s.kind? (some n) = some .function → ¬s.Inner n c) : s.Within c functions where
  mem f := by
    rw [hn.mem, h.encloses_listed hc]
    constructor
    · exact .inl
    · rintro (hf | ⟨-, hkind, hinner⟩)
      · exact hf
      · exact absurd hinner (houter hkind)
  nested := hn.nested
  distinct := hn.distinct

/-- Inside a function there is the function in addition. -/
theorem within_inner (h : s.Linked) (hn : s.Within n functions) (hthere : s.Anchored n)
    (hkind : s.kind? (some n) = some .function) (hinner : s.Inner n c) :
    s.Within c (n :: functions) where
  mem f := by
    rw [List.mem_cons, hn.mem, h.encloses_listed hinner.listed]
    constructor
    · rintro (rfl | hf)
      · exact .inr ⟨rfl, hkind, hinner⟩
      · exact .inl hf
    · rintro (hf | ⟨rfl, -⟩)
      · exact .inr hf
      · exact .inl rfl
  nested := List.pairwise_cons.mpr ⟨fun g hg => (hn.mem g).mp hg, hn.nested⟩
  distinct :=
    List.nodup_cons.mpr ⟨fun hmem => h.not_encloses_self hthere ((hn.mem n).mp hmem), hn.distinct⟩

end Linked

end RefCheck.Script.NodeStore
