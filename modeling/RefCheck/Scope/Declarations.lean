import RefCheck.Scope.Basic

/-!
# Which names a scope declares

Variables and function declarations belong to the function around them, or to the global scope, no
matter how deep in blocks, conditions and labels they stand. A function also declares its
parameters, and its own name if it is an expression. Empty names are never declared.
-/

namespace RefCheck

open RefCheck.Script

namespace Script.NodeStore

/-- The names that are declared in a statement outside all functions in it, in source order. The
depth bounds how far down to look. -/
def declaredIn (s : NodeStore) : (depth : Nat) → Option NodeId → List (Option NodeId)
  | 0, _ => []
  | depth + 1, id =>
    match s.kind? id with
    | some .var => s.children id
    | some .function => if s.isFunctionDeclaration id then [s.functionName id] else []
    | some .script | some .block | some .ifElse | some .label =>
      (s.children id).flatMap (s.declaredIn depth)
    | _ => []

/-- The names that are declared in a statement; no way down is longer than the store. -/
def declared (s : NodeStore) (id : Option NodeId) : List (Option NodeId) :=
  s.declaredIn (s.size + 1) id

/-- The names that a function declares: its own if it is an expression, its parameters, and those
in its body. -/
def declaredByFunction (s : NodeStore) (id : Option NodeId) : List (Option NodeId) :=
  (if s.isFunctionExpression id then [s.functionName id] else []) ++
    s.children (s.functionParams id) ++ s.declared (s.functionBody id)

end Script.NodeStore

namespace ScopeTable

/-- Declares the name that a node spells, unless it is empty. -/
def declareNode (t : ScopeTable) (s : NodeStore) (scope : Option ScopeId)
    (input : Option InputId) (node : Option NodeId) : ScopeTable :=
  if s.text node = "" then t else (t.declare scope (s.text node) node input).1

def declareNodes (t : ScopeTable) (s : NodeStore) (scope : Option ScopeId)
    (input : Option InputId) (nodes : List (Option NodeId)) : ScopeTable :=
  nodes.foldl (fun t node => t.declareNode s scope input node) t

/-- Adds a global scope with what all scripts below the roots declare. -/
def pushGlobal (t : ScopeTable) (s : NodeStore) (roots : List (Option NodeId)) : ScopeTable :=
  let scripts := roots.flatMap s.children
  scripts.foldl (fun u script =>
      u.declareNodes s (some t.size) ((s.get? script).bind (·.input)) (s.declared script))
    (t.push none roots.head?.join)

/-- Adds the scope of a function, which lies in the parent scope. -/
def pushFunction (t : ScopeTable) (s : NodeStore) (function : Option NodeId)
    (parent : Option ScopeId) : ScopeTable :=
  (t.push parent function).declareNodes s (some t.size) (s.inputOf function)
    (s.declaredByFunction function)

end ScopeTable

end RefCheck
