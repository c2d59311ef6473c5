import RefCheck.Program
import RefCheck.Scope.Declarations

/-!
# Walking the tree

A walk visits the children of a node before the node itself. The name of a declared function is
visited in the scope around the function, its parameters and body in its own scope, and so is the
name of a function expression. The children of a node are those that it has when the walk comes to
it. A visitor may change the program and may stop the walk.
-/

namespace RefCheck

open RefCheck.Script

/-- A walk goes on, or has stopped at an error. The state is kept either way. -/
inductive Progress (ε σ : Type)
  | on (state : σ)
  | stopped (error : ε) (state : σ)

namespace Progress

variable {ε σ α : Type}

def andThen (progress : Progress ε σ) (next : σ → Progress ε σ) : Progress ε σ :=
  match progress with
  | on state => next state
  | stopped error state => stopped error state

/-- Takes a step for each item until one stops. -/
def each (step : α → σ → Progress ε σ) : List α → σ → Progress ε σ
  | [], state => on state
  | item :: rest, state => (step item state).andThen (each step rest)

def state : Progress ε σ → σ
  | on state => state
  | stopped _ state => state

def error? : Progress ε σ → Option ε
  | on _ => none
  | stopped error _ => some error

@[simp] theorem on_andThen (state : σ) (next : σ → Progress ε σ) :
    (on state).andThen next = next state := rfl

@[simp] theorem stopped_andThen (error : ε) (state : σ) (next : σ → Progress ε σ) :
    (stopped error state).andThen next = stopped error state := rfl

theorem andThen_assoc (progress : Progress ε σ) (f g : σ → Progress ε σ) :
    (progress.andThen f).andThen g = progress.andThen fun s => (f s).andThen g := by
  cases progress <;> rfl

theorem each_append (step : α → σ → Progress ε σ) (xs ys : List α) (s : σ) :
    each step (xs ++ ys) s = (each step xs s).andThen (each step ys) := by
  induction xs generalizing s with
  | nil => rfl
  | cons x xs ih =>
    simp only [List.cons_append, each, andThen_assoc]
    congr
    funext t
    exact ih t

end Progress

/-- Where a walk is: the node, the node that it came from, the input of the script around it and
the scopes around it, the nearest first. -/
structure Place where
  node : NodeId
  parent : Option NodeId
  input : Option InputId
  scopes : List ScopeId
deriving DecidableEq, Repr

namespace Place

def scope (place : Place) : Option ScopeId := place.scopes.head?

def globalScope (place : Place) : Option ScopeId := place.scopes.getLast?

end Place

/-- What a walk carries along: the program, the scopes made so far and the visitor's own state. -/
structure WalkState (σ : Type) where
  program : Program
  scopes : ScopeTable
  own : σ

namespace WalkState

variable {σ : Type}

/-- What a name means at a place. -/
def lookup? (s : WalkState σ) (place : Place) (name : String) : Option Var :=
  s.scopes.lookup? place.scope name

/-- The name of the input around a place, empty outside all scripts. -/
def sourceName (s : WalkState σ) (place : Place) : String :=
  (place.input.map s.program.inputName).getD ""

/-- Reports a finding against a rule at the node of a place. -/
def report (s : WalkState σ) (place : Place) (rule : Rule) (args : List String) : WalkState σ :=
  let span := s.program.store.span (some place.node)
  { s with program := s.program.report (rule.diagnostic (s.sourceName place) span args) }

/-- Declares a name in the global scope of a place. -/
def declareGlobal (s : WalkState σ) (place : Place) (name : String) (node : NodeId)
    (input : InputId) : WalkState σ :=
  { s with scopes := (s.scopes.declare place.globalScope name (some node) (some input)).1 }

end WalkState

/-- What is done at each node. -/
def Visitor (ε σ : Type) := Place → WalkState σ → Progress ε (WalkState σ)

namespace Walk

variable {ε σ : Type}

/-- Walks a subtree, at most so deep. -/
def subtree (visit : Visitor ε σ) :
    (depth : Nat) → (id parent : Option NodeId) → Option InputId → List ScopeId → WalkState σ →
      Progress ε (WalkState σ)
  | 0, _, _, _, _, s => .on s
  | depth + 1, id, parent, input, scopes, s =>
    match id, s.program.store.get? id with
    | some self, some node =>
      let input := if node.kind = .script then node.input else input
      let below : Progress ε (WalkState σ) :=
        match node.kind, node.children with
        | .function, [] => .on s
        | .function, name :: rest =>
          let isExpression := parent.isSome && s.program.store.isFunctionExpression id
          let outside : Progress ε (WalkState σ) :=
            if isExpression then .on s else subtree visit depth name id input scopes s
          outside.andThen fun s =>
            let scope := s.scopes.size
            let inner := scope :: scopes
            let s := { s with
              scopes := s.scopes.pushFunction s.program.store id scopes.head? }
            Progress.each (fun child => subtree visit depth child id input inner)
              (if isExpression then name :: rest else rest) s
        | _, children =>
          Progress.each (fun child => subtree visit depth child id input scopes) children s
      below.andThen (visit ⟨self, parent, input, scopes⟩)
    | _, _ => .on s

/-- How deep a tree in the store can be. A visitor that adds one statement at a time below a script
makes it no deeper than the additional levels allow. -/
def depthBound (p : Program) : Nat := p.store.size + 4

/-- The state before a walk, with a global scope for all scripts below the roots. -/
def start (p : Program) (roots : List (Option NodeId)) (own : σ) : WalkState σ :=
  ⟨p, ScopeTable.empty.pushGlobal p.store roots, own⟩

/-- Walks several roots in order, in one global scope for all of them. -/
def roots (visit : Visitor ε σ) (p : Program) (ids : List (Option NodeId)) (own : σ) :
    Progress ε (WalkState σ) :=
  Progress.each (fun id => subtree visit (depthBound p) id none none [0]) ids (start p ids own)

/-- Walks the subtree at one node, in the global scope of some roots. -/
def within (visit : Visitor ε σ) (p : Program) (scopeRoots : List (Option NodeId))
    (id : Option NodeId) (own : σ) : Progress ε (WalkState σ) :=
  subtree visit (depthBound p) id (p.store.parent id) (p.store.inputOf id) [0]
    (start p scopeRoots own)

end Walk

end RefCheck
