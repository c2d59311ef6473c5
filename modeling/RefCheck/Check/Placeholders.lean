import RefCheck.Program

/-!
# Placeholders

An extern without a source text collects a declaration for each name that is declared nowhere, so
that the name is declared from then on.
-/

namespace RefCheck

open RefCheck.Text RefCheck.Script

/-- The input that collects placeholders, and its script. -/
structure Placeholders where
  input : InputId
  root : NodeId
deriving DecidableEq, Repr

namespace Placeholders

/-- The name of an input that collects placeholders. -/
def inputName : String := "\x7bSyntheticVarsDeclar\x7d"

/-- Adds an extern that collects placeholders. -/
def create (p : Program) : Program × Placeholders :=
  ((p.newExtern inputName).1, ⟨(p.newExtern inputName).2, p.store.size⟩)

/-- Declares a name in one more statement. The answer is the node of the name. -/
def declare (h : Placeholders) (p : Program) (name : String) : Program × NodeId :=
  let node := p.store.size
  let store := (p.store.push (.leaf .name name Span.none none)).pushWith
    (.leaf .var "" Span.none none) [some node]
  ({ p with store := store.appendChild (some h.root) (some (node + 1)) }, node)

/-- The names that were declared so far. -/
def names (h : Placeholders) (p : Program) : List String :=
  ((p.store.children (some h.root)).flatMap p.store.children).map p.store.text

end Placeholders

end RefCheck
