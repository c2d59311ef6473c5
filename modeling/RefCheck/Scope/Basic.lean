import RefCheck.Script.NodeStore

/-!
# Scopes

A scope binds names to variables and lies in its parent, if it has one; the outermost scope is the
global one. The first declaration of a name in a scope stays. A name means what the nearest
enclosing scope with a binding for it says.
-/

namespace RefCheck

open RefCheck.Script

abbrev ScopeId := Nat

abbrev VarId := Nat

/-- A declared name: the node and the input that declare it, and the scope that binds it. -/
structure Var where
  name : String
  node : Option NodeId
  input : Option InputId
  scope : Option ScopeId
  isGlobal : Bool
deriving DecidableEq, Repr

/-- A scope with the node that it belongs to. -/
structure Scope where
  parent : Option ScopeId
  root : Option NodeId
  bindings : List (String × VarId)
deriving DecidableEq, Repr

/-- All scopes and all variables, by id. -/
structure ScopeTable where
  scopes : Array Scope
  vars : Array Var
deriving DecidableEq, Repr

namespace ScopeTable

def empty : ScopeTable := ⟨#[], #[]⟩

def size (t : ScopeTable) : Nat := t.scopes.size

def get? (t : ScopeTable) (id : Option ScopeId) : Option Scope := id.bind fun i => t.scopes[i]?

/-- Adds a scope without bindings; its id is the size before. -/
def push (t : ScopeTable) (parent : Option ScopeId) (root : Option NodeId) : ScopeTable :=
  { t with scopes := t.scopes.push ⟨parent, root, []⟩ }

/-- Whether a scope is there and lies in no other. -/
def isGlobal (t : ScopeTable) (id : Option ScopeId) : Bool :=
  ((t.get? id).map fun s => s.parent.isNone).getD false

def ownId? (t : ScopeTable) (id : Option ScopeId) (name : String) : Option VarId :=
  (t.get? id).bind fun s => s.bindings.lookup name

/-- The variable that a scope itself binds to a name. -/
def own? (t : ScopeTable) (id : Option ScopeId) (name : String) : Option Var :=
  (t.ownId? id name).bind fun v => t.vars[v]?

/-- Declares a name in a scope, unless the scope binds it. The answer is the id of the variable.
A variable of a scope that is not there is bound nowhere. -/
def declare (t : ScopeTable) (scope : Option ScopeId) (name : String) (node : Option NodeId)
    (input : Option InputId) : ScopeTable × VarId :=
  match t.ownId? scope name with
  | some var => (t, var)
  | none =>
    let var := t.vars.size
    let vars := t.vars.push ⟨name, node, input, scope, t.isGlobal scope⟩
    let bind := fun (s : Scope) => { s with bindings := (name, var) :: s.bindings }
    (⟨match scope with
      | none => t.scopes
      | some i => t.scopes.modify i bind, vars⟩, var)

/-- A scope and those around it, the nearest first, within so many steps. -/
def enclosingWithin (t : ScopeTable) : (steps : Nat) → Option ScopeId → List ScopeId
  | 0, _ => []
  | steps + 1, id =>
    match id, t.get? id with
    | some i, some s => i :: t.enclosingWithin steps s.parent
    | _, _ => []

/-- A scope and those around it, the nearest first. A way out without a loop passes each scope
once. -/
def enclosing (t : ScopeTable) (id : Option ScopeId) : List ScopeId := t.enclosingWithin t.size id

/-- What a name means in a scope. -/
def lookup? (t : ScopeTable) (id : Option ScopeId) (name : String) : Option Var :=
  (t.enclosing id).findSome? fun i => t.own? (some i) name

/-- The outermost scope around a scope. -/
def globalOf (t : ScopeTable) (id : Option ScopeId) : Option ScopeId :=
  (t.enclosing id).find? fun i => t.isGlobal (some i)

end ScopeTable

end RefCheck
