import Mathlib.Data.List.Basic
import RefCheck.Proofs.Scope.Tables
import RefCheck.Proofs.Script.Growth

/-!
# What scopes declare, read off the trees

The names that a statement or a function declares are computed on planted trees here, and the store
and the scope tables are shown to agree.
-/

namespace RefCheck

open RefCheck.Script

namespace Script

/-- The kinds whose children declare for the scope around them. -/
def NodeKind.isOpen : NodeKind → Bool
  | script | block | ifElse | label => true
  | _ => false

mutual

/-- The names that a statement declares outside all functions in it, in source order. A function
declares its name if it stands below a kind that holds statements. -/
def Tree.hoisted (above : NodeKind) (base : Nat) : Tree → List Planted
  | node kind _ _ children =>
    if kind = .var then Planted.spread base children
    else if kind = .function then
      if above.holdsStatements then (Planted.spread base children).head?.toList else []
    else if kind.isOpen then forestHoisted kind base children
    else []

def Tree.forestHoisted (above : NodeKind) (base : Nat) : List Tree → List Planted
  | [] => []
  | t :: rest => t.hoisted above base ++ forestHoisted above (base + t.size) rest

end

theorem forestHoisted_eq {above : NodeKind} {base : Nat} {trees : List Tree} :
    Tree.forestHoisted above base trees =
      (Planted.spread base trees).flatMap fun c => c.tree.hoisted above c.base := by
  induction trees generalizing base with
  | nil => rfl
  | cons t rest ih => rw [Tree.forestHoisted, ih, Planted.spread, List.flatMap_cons]

namespace Planted

def hoisted (above : NodeKind) (p : Planted) : List Planted := p.tree.hoisted above p.base

/-- The names that a function declares: its own if it stands in the place of a value, its
parameters, and those in its body. -/
def declares (above : NodeKind) (function : Planted) : List Planted :=
  match function.children with
  | [name, params, body] =>
    (if above.holdsStatements then [] else [name]) ++ params.children ++ body.hoisted .function
  | _ => []

end Planted

/-- What the statements of a script declare globally. -/
def Plot.hoisted (plot : Plot) : List Planted := plot.body.flatMap (Planted.hoisted .script)

namespace NodeStore

variable {s : NodeStore} {parent : Option NodeId} {p c : Planted} {above : NodeKind}

theorem Shows.isFunctionDeclaration (h : s.Shows parent p) (habove : s.kind? parent = some above) :
    s.isFunctionDeclaration (some p.root) =
      (p.tree.kind = .function && above.holdsStatements) := by
  rw [NodeStore.isFunctionDeclaration, h.kind_eq, h.parent_eq, habove]
  simp

theorem Shows.isFunctionExpression (h : s.Shows parent p)
    (habove : s.kind? parent = some above) :
    s.isFunctionExpression (some p.root) =
      (p.tree.kind = .function && !above.holdsStatements) := by
  rw [NodeStore.isFunctionExpression, h.kind_eq, h.isFunctionDeclaration habove]
  cases p.tree.kind <;> simp

/-- The name, the parameters and the body of a function. -/
theorem Shows.parts (h : s.Shows parent p) (hkind : p.tree.kind = .function) :
    ∃ name params body, p.children = [name, params, body] := by
  obtain ⟨name, params, body, hparts⟩ := h.inner.parts hkind
  exact ⟨_, _, _, by rw [Planted.children, hparts]; rfl⟩

/-- The names that a tree declares, in terms of the trees below it. -/
theorem hoisted_eq (p : Planted) : p.hoisted above =
    if p.tree.kind = .var then p.children
    else if p.tree.kind = .function then
      if above.holdsStatements then p.children.head?.toList else []
    else if p.tree.kind.isOpen then p.children.flatMap (Planted.hoisted p.tree.kind)
    else [] := by
  obtain ⟨base, kind, text, span, children⟩ := p
  have hbelow : kind ≠ .name → Planted.spread base children =
      Planted.children ⟨base, .node kind text span children⟩ := by
    intro h
    simp [Planted.children, Planted.below, Tree.leads, Tree.kind, Tree.children, h]
  rw [Planted.hoisted, Tree.hoisted, forestHoisted_eq]
  change _ = if kind = .var then _ else if kind = .function then _ else if kind.isOpen then _ else _
  split
  · next h => rw [hbelow (by simp [h])]
  · split
    · next h => rw [hbelow (by simp [h])]
    · split
      · next h =>
        rw [hbelow (by rintro rfl; cases h)]
        rfl
      · rfl

/-- What the store declares in a node of a shown tree, given what it declares in those below. -/
theorem declaredIn_succ {id : Option NodeId} {kind : NodeKind} (depth : Nat)
    (hkind : s.kind? id = some kind) :
    s.declaredIn (depth + 1) id =
      if kind = .var then s.children id
      else if kind = .function then
        if s.isFunctionDeclaration id then [s.functionName id] else []
      else if kind.isOpen then (s.children id).flatMap (s.declaredIn depth)
      else [] := by
  rw [NodeStore.declaredIn, hkind]
  cases kind <;> rfl

theorem Shows.declaredIn {depth : Nat} (h : s.Shows parent p)
    (habove : s.kind? parent = some above) (hdepth : p.tree.size ≤ depth) :
    s.declaredIn depth (some p.root) = (p.hoisted above).map fun q => some q.root := by
  induction depth generalizing p parent above with
  | zero => exact absurd hdepth (Nat.not_le_of_lt p.tree.size_pos)
  | succ depth ih =>
    rw [declaredIn_succ depth h.kind_eq, hoisted_eq, h.children_eq, h.isFunctionDeclaration habove]
    split
    · rfl
    · split
      · next hkind =>
        obtain ⟨name, params, body, hparts⟩ := h.parts hkind
        cases above.holdsStatements <;>
          simp [hkind, functionName, h.children_eq, hparts]
      · split
        · rw [List.flatMap_map, List.map_flatMap]
          apply List.flatMap_congr
          intro c hc
          have hsize := size_child_lt hc
          exact ih (h.child hc) h.kind_eq (by omega)
        · rfl

/-- Whatever a shown tree declares is shown. -/
theorem Shows.hoisted {q : Planted} (h : s.Shows parent p) (hq : q ∈ p.hoisted above) :
    ∃ parent, s.Shows parent q := by
  obtain ⟨base, t⟩ := p
  induction t generalizing base parent above with
  | node kind text span children ih =>
    rw [hoisted_eq] at hq
    have hchild : ∀ c ∈ Planted.children ⟨base, .node kind text span children⟩,
        s.Shows (some (Planted.root ⟨base, .node kind text span children⟩)) c :=
      fun c hc => h.child hc
    split at hq
    · exact ⟨_, hchild q hq⟩
    · split at hq
      · split at hq
        · exact ⟨_, hchild q (List.mem_of_mem_head? (by simpa using hq))⟩
        · cases hq
      · split at hq
        · obtain ⟨c, hc, hqc⟩ := List.mem_flatMap.mp hq
          exact ih c.tree (spread_tree hc) c.base (hchild c hc) hqc
        · cases hq

theorem Shows.declared (h : s.Shows parent p) (habove : s.kind? parent = some above) :
    s.declared (some p.root) = (p.hoisted above).map fun q => some q.root := by
  have hsize := h.size_le
  exact h.declaredIn habove (by omega)

theorem Shows.declaredByFunction (h : s.Shows parent p) (habove : s.kind? parent = some above)
    (hkind : p.tree.kind = .function) :
    s.declaredByFunction (some p.root) = (p.declares above).map fun q => some q.root := by
  obtain ⟨name, params, body, hparts⟩ := h.parts hkind
  have hchildren := h.children_eq
  rw [hparts] at hchildren
  have hparams := h.child (c := params) (by simp [hparts])
  have hbody := h.child (c := body) (by simp [hparts])
  simp only [NodeStore.declaredByFunction, functionName, functionParams, functionBody, hchildren,
    h.isFunctionExpression habove, hkind, Planted.declares, hparts]
  have hparams := hparams.children_eq
  have hbody := hbody.declared h.kind_eq
  cases above.holdsStatements <;> simp_all

theorem Shows.declares {q : Planted} (h : s.Shows parent p) (hq : q ∈ p.declares above) :
    ∃ parent, s.Shows parent q := by
  rw [Planted.declares] at hq
  split at hq
  · next name params body hparts =>
    rcases List.mem_append.mp hq with hq | hq
    · rcases List.mem_append.mp hq with hq | hq
      · split at hq
        · cases hq
        · exact ⟨_, h.child (by simp_all)⟩
      · exact ⟨_, (h.child (c := params) (by simp [hparts])).child hq⟩
    · exact (h.child (c := body) (by simp [hparts])).hoisted hq
  · cases hq

end NodeStore

end Script

end RefCheck
