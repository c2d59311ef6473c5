import RefCheck.Text.Span

/-!
# Syntax trees

A declared variable is a name below `var` and its initializer hangs below the name. A function has
its name, its parameter list and its body below it, and an unnamed one a name with empty text. A
property name is no reference to a variable, so it has a kind of its own.
-/

namespace RefCheck.Script

open RefCheck.Text

inductive NodeKind
  | root | script | block | var | name | function | paramList | exprResult | ret | ifElse
  | label | breakOut | continueOn | empty | getProp | propertyName | call | assign
  | binary | unary | number | string | this | null | trueValue | falseValue
deriving DecidableEq, Repr, Inhabited

/-- The kinds below which a function is a declaration. -/
def NodeKind.holdsStatements : NodeKind → Bool
  | script | block | label => true
  | _ => false

/-- A node with what stands below it. The text is that of a name or literal, or an operator. -/
inductive Tree
  | node (kind : NodeKind) (text : String) (span : Span) (children : List Tree)
deriving Repr, Inhabited

namespace Tree

def kind : Tree → NodeKind
  | node kind _ _ _ => kind

def text : Tree → String
  | node _ text _ _ => text

def span : Tree → Span
  | node _ _ span _ => span

def children : Tree → List Tree
  | node _ _ _ children => children

section Node

variable {k : NodeKind} {x : String} {span : Span} {children : List Tree}

@[simp] theorem kind_node : (node k x span children).kind = k := rfl

@[simp] theorem text_node : (node k x span children).text = x := rfl

@[simp] theorem children_node : (node k x span children).children = children := rfl

end Node

/-- What passes from the children to their parent holds of every tree. -/
@[induction_eliminator]
theorem induct {P : Tree → Prop}
    (node : ∀ kind text span children, (∀ t ∈ children, P t) → P (node kind text span children))
    (tree : Tree) : P tree :=
  @Tree.rec P (fun trees => ∀ t ∈ trees, P t) node (by simp)
    (fun _ _ first rest => List.forall_mem_cons.mpr ⟨first, rest⟩) tree

mutual

/-- How many nodes a tree has. -/
def size : Tree → Nat
  | node _ _ _ children => forestSize children + 1

/-- How many nodes some trees have together. -/
def forestSize : List Tree → Nat
  | [] => 0
  | tree :: rest => tree.size + forestSize rest

end

@[simp] theorem size_node (kind : NodeKind) (text : String) (span : Span) (children : List Tree) :
    (node kind text span children).size = forestSize children + 1 := by
  rw [size]

theorem size_pos (tree : Tree) : 0 < tree.size := by
  cases tree
  simp

/-- A tree with nothing below it. -/
def leaf (kind : NodeKind) (text : String) (span : Span) : Tree := node kind text span []

/-- A tree without a text. -/
def branch (kind : NodeKind) (span : Span) (children : List Tree) : Tree :=
  node kind "" span children

end Tree

end RefCheck.Script
