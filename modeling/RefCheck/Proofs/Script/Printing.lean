import RefCheck.Proofs.Script.Derivation

/-!
# Printing trees

`Tree.print` writes a tree as a script again, in one fixed way: its words with a space between any
two, every expression but a leaf in parentheses, a semicolon behind every simple statement, and
every block and branch in braces. Spans are not printed: `Tree.bare` is a tree without them.
-/

namespace RefCheck.Script

open RefCheck.Text

/-- A token without its place. -/
structure Word where
  kind : TokenKind
  text : String
deriving DecidableEq, Repr

def Token.word (t : Token) : Word := ⟨t.kind, t.text⟩

/-- How the tokens that are always spelled alike are spelled. -/
def TokenKind.spelling : TokenKind → String
  | var => "var"
  | function => "function"
  | ret => "return"
  | ifWord => "if"
  | elseWord => "else"
  | breakWord => "break"
  | continueWord => "continue"
  | this => "this"
  | null => "null"
  | trueWord => "true"
  | falseWord => "false"
  | typeof => "typeof"
  | openParen => "("
  | closeParen => ")"
  | openBrace => "\x7b"
  | closeBrace => "\x7d"
  | comma => ","
  | semicolon => ";"
  | colon => ":"
  | dot => "."
  | equals => "="
  | bang => "!"
  | identifier | number | string | operator | endOfInput => ""

/-- Whether a quote stands among the characters with no backslash before it that counts. -/
def occursUnescaped (quote : Char) : (escaped : Bool) → List Char → Bool
  | _, [] => false
  | true, _ :: rest => occursUnescaped quote false rest
  | false, c :: rest => c = quote || occursUnescaped quote (c = '\\') rest

/-- The quote that a string is written in. -/
def quoteFor (text : List Char) : Char := if occursUnescaped '"' false text then '\x27' else '"'

namespace Word

/-- The word of a token that is always spelled alike. -/
def of (kind : TokenKind) : Word := ⟨kind, kind.spelling⟩

def name (text : String) : Word := ⟨.identifier, text⟩

/-- The operator before an operand. -/
def prefixed (op : String) : Word :=
  if op = "!" then of .bang else if op = "typeof" then of .typeof else ⟨.operator, op⟩

/-- How a word is written. -/
def chars (w : Word) : List Char :=
  let text := w.text.toList
  if w.kind = .string then quoteFor text :: (text ++ [quoteFor text]) else text

end Word

/-- Whether a node alone is an expression. -/
def NodeKind.isLeaf (kind : NodeKind) : Bool := kind.tokenKind.isSome

/-- Parentheses around the words of an expression, unless it is a leaf. -/
def enclosed (kind : NodeKind) (words : List Word) : List Word :=
  if kind.isLeaf then words else .of .openParen :: (words ++ [.of .closeParen])

mutual

/-- The words of a tree. An expression has no parentheses around it yet. -/
def Tree.words : Tree → List Word
  | .node kind text _ children =>
    match kind, children with
    | .script, body => statementWords body
    | .block, body => .of .openBrace :: (statementWords body ++ [.of .closeBrace])
    | .var, names => .of .var :: (listWords names ++ [.of .semicolon])
    | .function, [name, parameters, body] =>
      .of .function :: (name.words ++ (parameters.words ++ body.words))
    | .paramList, names => .of .openParen :: (listWords names ++ [.of .closeParen])
    | .exprResult, values => listWords values ++ [.of .semicolon]
    | .ret, values => .of .ret :: (listWords values ++ [.of .semicolon])
    | .ifElse, [condition, first] =>
      .of .ifWord :: .of .openParen ::
        (enclosed condition.kind condition.words ++ .of .closeParen :: first.words)
    | .ifElse, [condition, first, second] =>
      .of .ifWord :: .of .openParen ::
        (enclosed condition.kind condition.words ++ .of .closeParen ::
          (first.words ++ .of .elseWord :: second.words))
    | .label, [name, body] => name.words ++ .of .colon :: body.words
    | .breakOut, labels => .of .breakWord :: (listWords labels ++ [.of .semicolon])
    | .continueOn, labels => .of .continueWord :: (listWords labels ++ [.of .semicolon])
    | .empty, _ => [.of .semicolon]
    | .getProp, [object, name] => enclosed object.kind object.words ++ .of .dot :: name.words
    | .call, callee :: arguments =>
      enclosed callee.kind callee.words ++ .of .openParen ::
        (listWords arguments ++ [.of .closeParen])
    | .assign, [target, value] =>
      enclosed target.kind target.words ++ .of .equals :: enclosed value.kind value.words
    | .unary, [operand] => .prefixed text :: enclosed operand.kind operand.words
    | .binary, [left, right] =>
      enclosed left.kind left.words ++ ⟨.operator, text⟩ :: enclosed right.kind right.words
    | .name, [] => if text = "" then [] else [.name text]
    | .name, [value] => .name text :: .of .equals :: enclosed value.kind value.words
    | kind, _ => (kind.tokenKind.map (⟨·, text⟩)).toList

/-- The words of statements one after the other. -/
def statementWords : List Tree → List Word
  | [] => []
  | t :: rest => t.words ++ statementWords rest

/-- The words of expressions or names with commas between them. -/
def listWords : List Tree → List Word
  | [] => []
  | [t] => enclosed t.kind t.words
  | t :: rest => enclosed t.kind t.words ++ .of .comma :: listWords rest

end

/-- The words of a tree in the place of an expression or a name. -/
def Tree.enclosed (t : Tree) : List Word := Script.enclosed t.kind t.words

/-- The canonical text of a tree. -/
def Tree.print (t : Tree) : String := String.ofList ([' '].intercalate (t.words.map Word.chars))

mutual

/-- A tree without its spans. -/
def Tree.bare : Tree → Tree
  | .node kind text _ children => .node kind text .none (forestBare children)

def forestBare : List Tree → List Tree
  | [] => []
  | t :: rest => t.bare :: forestBare rest

end

theorem forestBare_eq (trees : List Tree) : forestBare trees = trees.map Tree.bare := by
  induction trees with
  | nil => rfl
  | cons t rest ih => rw [forestBare, ih, List.map_cons]

@[simp] theorem bare_node {kind : NodeKind} {text : String} {span : Span} {children : List Tree} :
    (Tree.node kind text span children).bare = .node kind text .none (children.map Tree.bare) := by
  rw [Tree.bare, forestBare_eq]

@[simp] theorem bare_branch {kind : NodeKind} {span : Span} {children : List Tree} :
    (Tree.branch kind span children).bare = .node kind "" .none (children.map Tree.bare) := by
  rw [Tree.branch, bare_node]

@[simp] theorem bare_toLeaf {t : Token} {kind : NodeKind} :
    (t.toLeaf kind).bare = .node kind t.text .none [] := by
  rw [Token.toLeaf, Tree.leaf, bare_node, List.map_nil]

theorem Tree.kind_of_bare {t u : Tree} (h : t.bare = u.bare) : t.kind = u.kind := by
  cases t
  cases u
  rw [bare_node, bare_node] at h
  exact (Tree.node.inj h).1

theorem listWords_cons (t next : Tree) (rest : List Tree) :
    listWords (t :: next :: rest) = t.enclosed ++ .of .comma :: listWords (next :: rest) := rfl

/-- A list of items is not longer than its words and one more. -/
theorem length_listWords (trees : List Tree) : trees.length ≤ (listWords trees).length + 1 := by
  induction trees with
  | nil => exact Nat.zero_le _
  | cons t rest ih =>
    cases rest with
    | nil => exact Nat.succ_le_succ (Nat.zero_le _)
    | cons next more =>
      simp only [listWords_cons, List.length_append, List.length_cons] at ih ⊢
      omega

/-- No more statements than words. -/
theorem length_statementWords {trees : List Tree} (h : ∀ t ∈ trees, t.words ≠ []) :
    trees.length ≤ (statementWords trees).length := by
  induction trees with
  | nil => exact Nat.le_refl _
  | cons t rest ih =>
    obtain ⟨ht, hrest⟩ := List.forall_mem_cons.mp h
    have hpos := List.length_pos_iff.mpr ht
    have hlength := ih hrest
    simp only [statementWords, List.length_append, List.length_cons]
    omega

end RefCheck.Script
