import RefCheck.Script.Cursor

/-!
# The grammar of scripts

One production is one reader, of whatever kind. Productions that lead back to statements and
expressions take them as arguments, so none is recursive; `below` ties the knot by recursion on the
levels of nesting that are left. A level is spent on each nested statement, expression and operand
of a unary operator, and on each link of a chain of binary operators or of members and calls. The
links of a chain nest in each other, and the levels they took are given back at its end.
-/

namespace RefCheck.Script

open RefCheck.Text Reader

/-- The productions that are entered one level further in. -/
structure Productions (m : Type → Type) where
  statement : m Tree
  assignment : m Tree
  unary : m Tree
  binaryLink (floor : Nat) (left : Tree) : m Tree
  postfixLink (left : Tree) : m Tree

abbrev Level := Productions Reader

/-- How tightly a binary operator binds. -/
def precedence : String → Option Nat
  | "||" => some 1
  | "&&" => some 2
  | "==" | "!=" | "===" | "!==" => some 3
  | "<" | ">" | "<=" | ">=" => some 4
  | "+" | "-" => some 5
  | "*" | "/" | "%" => some 6
  | _ => none

/-- The precedence of a token, if it is an operator that binds more tightly than the floor. -/
def Token.precedenceAbove (floor : Nat) (token : Token) : Option Nat :=
  if token.kind = .operator then (precedence token.text).filter (floor < ·) else none

def Token.isUnaryOperator (token : Token) : Bool :=
  match token.kind with
  | .bang | .typeof => true
  | .operator => token.text = "-" || token.text = "+"
  | _ => false

/-- The kind of node that a token alone makes in an expression. -/
def TokenKind.leafKind : TokenKind → Option NodeKind
  | .identifier => some .name
  | .number => some .number
  | .string => some .string
  | .this => some .this
  | .null => some .null
  | .trueWord => some .trueValue
  | .falseWord => some .falseValue
  | _ => none

def Token.toLeaf (token : Token) (kind : NodeKind) : Tree := .leaf kind token.text token.span

/-- Takes a semicolon if one follows, and extends the span over it. -/
def finish (span : Span) : Reader Span := do
  if ← isAt .semicolon then
    let token ← advance
    return span.to token.span
  else
    return span

def parameter : Reader Tree := do
  let token ← expect .identifier .parameterName
  return token.toLeaf .name

/-- The name after the word `function`; without one, an empty name right behind the word. -/
def functionName (keyword : Token) : Reader Tree := do
  if ← isAt .identifier then
    let token ← advance
    return token.toLeaf .name
  else
    return .leaf .name "" ⟨keyword.span.stop, keyword.span.stop⟩

/-- Leaves a labelled statement or starts it again. -/
def jumpStatement (kind : NodeKind) : Reader Tree := do
  let keyword ← advance
  if ← isAt .identifier then
    let token ← advance
    let label := token.toLeaf .name
    let span ← holding label (finish (keyword.span.to token.span))
    return .branch kind span [label]
  else
    let span ← finish keyword.span
    return .branch kind span []

section Productions

variable {m : Type → Type} [Parser m]

/-- Statements in braces. -/
def block (statement : m Tree) : m Tree := do
  let opening ← expect .openBrace .openBrace
  let body ← perToken (upTo .closeBrace .closeBrace statement)
  let closing ← holdingAll body advance
  return .branch .block (opening.span.to closing.span) body

/-- Parameters in parentheses. -/
def parameterList : m Tree := do
  let opening ← expect .openParen .openParen
  let parameters ←
    if ← isAt .closeParen then pure [] else perToken (separated parameter)
  let closing ← holdingAll parameters (expect .closeParen .closeParen)
  return .branch .paramList (opening.span.to closing.span) parameters

def function (statement : m Tree) : m Tree := do
  let keyword ← advance
  let name ← functionName keyword
  holding name do
    let parameters ← parameterList
    let body ← holding parameters (block statement)
    return .branch .function (keyword.span.to body.span) [name, parameters, body]

/-- One declared variable. The initializer hangs below the name, which comes before it. -/
def declarator (assignment : m Tree) : m Tree := do
  let token ← expect .identifier .variableName
  let name := token.toLeaf .name
  holding name do
    if ← eat .equals then
      let value ← assignment
      return .node .name token.text token.span [value]
    else
      return name

/-- Where a declared variable ends: with its initializer, if it has one. -/
def declaratorEnd (name : Tree) : Span := (name.children.getLast?.getD name).span

def varStatement (assignment : m Tree) : m Tree := do
  let keyword ← advance
  let names ← perToken (separated (declarator assignment))
  let last := (names.getLast?.map declaratorEnd).getD keyword.span
  let span ← holdingAll names (finish (keyword.span.to last))
  return .branch .var span names

/-- A branch of a condition is always a block; another statement is wrapped in one. -/
def branch (statement : m Tree) : m Tree := do
  let body ← statement
  return if body.kind = .block then body else .branch .block body.span [body]

def ifStatement (statement assignment : m Tree) : m Tree := do
  let keyword ← advance
  let _ ← expect .openParen .openParen
  let condition ← assignment
  holding condition do
    let _ ← expect .closeParen .closeParen
    let first ← branch statement
    holding first do
      if ← eat .elseWord then
        let second ← branch statement
        return .branch .ifElse (keyword.span.to second.span) [condition, first, second]
      else
        return .branch .ifElse (keyword.span.to first.span) [condition, first]

def returnStatement (assignment : m Tree) : m Tree := do
  let keyword ← advance
  let token ← current
  if token.kind = .semicolon || token.kind = .closeBrace || token.kind = .endOfInput then
    let span ← finish keyword.span
    return .branch .ret span []
  else
    let value ← assignment
    let span ← holding value (finish (keyword.span.to value.span))
    return .branch .ret span [value]

def labelled (statement : m Tree) : m Tree := do
  let token ← advance
  let label := token.toLeaf .name
  holding label do
    let _ ← expect .colon .colon
    let body ← statement
    return .branch .label (token.span.to body.span) [label, body]

def exprStatement (assignment : m Tree) : m Tree := do
  let value ← assignment
  let span ← holding value (finish value.span)
  return .branch .exprResult span [value]

/-- Any statement. A name is a label if a colon follows it. -/
def statementBody (statement assignment : m Tree) : m Tree := do
  let token ← current
  match token.kind with
  | .var => varStatement assignment
  | .function => function statement
  | .openBrace => block statement
  | .ifWord => ifStatement statement assignment
  | .ret => returnStatement assignment
  | .breakWord => jumpStatement .breakOut
  | .continueWord => jumpStatement .continueOn
  | .semicolon =>
    let token ← advance
    return .branch .empty token.span []
  | .identifier =>
    if (← following) = .colon then labelled statement else exprStatement assignment
  | _ => exprStatement assignment

/-- A name, a literal, a function or an expression in parentheses, which leave no node. -/
def primary (statement assignment : m Tree) : m Tree := do
  let token ← current
  match token.kind.leafKind with
  | some kind =>
    let token ← advance
    return token.toLeaf kind
  | none =>
    match token.kind with
    | .function => function statement
    | .openParen =>
      let _ ← advance
      let inner ← assignment
      let _ ← holding inner (expect .closeParen .closeParen)
      return inner
    | _ => missing .expression

def arguments (assignment : m Tree) : m (List Tree) := do
  if ← isAt .closeParen then return [] else perToken (separated assignment)

/-- One member or one call on what stands to its left. -/
def postfixStep (assignment : m Tree) (left : Tree) : m Tree := do
  if ← eat .dot then
    let token ← expect .identifier .propertyName
    return .branch .getProp (left.span.to token.span) [left, token.toLeaf .propertyName]
  else
    let _ ← advance
    let arguments ← arguments assignment
    let closing ← holdingAll arguments (expect .closeParen .closeParen)
    return .branch .call (left.span.to closing.span) (left :: arguments)

/-- Goes on with members and calls for as long as there are any. -/
def postfixChain (inner : Option (Productions m)) (left : Tree) : m Tree := do
  let token ← current
  if token.kind = .dot || token.kind = .openParen then
    entering [left] inner (·.postfixLink left)
  else
    return left

def statement (inner : Option (Productions m)) : m Tree := nested inner (·.statement)

def assignment (inner : Option (Productions m)) : m Tree := nested inner (·.assignment)

/-- Members and calls on what comes first. -/
def members (inner : Option (Productions m)) : m Tree := restoring do
  let first ← primary (statement inner) (assignment inner)
  postfixChain inner first

def unary (inner : Option (Productions m)) : m Tree := do
  let token ← current
  if token.isUnaryOperator then
    let op ← advance
    let operand ← nested inner (·.unary)
    return .node .unary op.text (op.span.to operand.span) [operand]
  else
    members inner

/-- Goes on with operators that bind more tightly than the floor. -/
def binaryChain (inner : Option (Productions m)) (floor : Nat) (left : Tree) : m Tree := do
  let token ← current
  if (token.precedenceAbove floor).isSome then
    entering [left] inner (·.binaryLink floor left)
  else
    return left

/-- Operators on what comes first. -/
def binary (inner : Option (Productions m)) (floor : Nat) : m Tree := restoring do
  let left ← unary inner
  binaryChain inner floor left

/-- One operator and its right operand, which takes all that binds more tightly. -/
def binaryStep (inner : Option (Productions m)) (left : Tree) : m Tree := do
  let op ← advance
  let right ← binary inner ((precedence op.text).getD 0)
  return .node .binary op.text (left.span.to right.span) [left, right]

/-- An expression, with an assignment if its left side is a name or a member. -/
def assignmentBody (inner : Option (Productions m)) : m Tree := do
  let target ← binary inner 0
  if ← isAt .equals then
    holding target do
      if target.kind = .name || target.kind = .getProp then
        let _ ← advance
        let value ← assignment inner
        return .branch .assign (target.span.to value.span) [target, value]
      else
        failAt .invalidTarget target.span
  else
    return target

/-- The productions of a level, from those of the level below. -/
def levelAbove (inner : Option (Productions m)) : Productions m where
  statement := statementBody (statement inner) (assignment inner)
  assignment := assignmentBody inner
  unary := unary inner
  binaryLink floor left := do
    let link ← holding left (binaryStep inner left)
    binaryChain inner floor link
  postfixLink left := do
    let link ← holding left (postfixStep (assignment inner) left)
    postfixChain inner link

/-- What can be entered with so many levels left. -/
def below : (left : Nat) → Option (Productions m)
  | 0 => none
  | left + 1 => some (levelAbove (below left))

/-- Statements up to the end of input. -/
def scriptOf (statement : m Tree) : m Tree := do
  let first ← current
  let body ← perToken (upTo .endOfInput .expression statement)
  let last ← current
  return .branch .script ⟨first.span.start, last.span.stop⟩ body

end Productions

/-- A whole script. -/
def script : Reader Tree := scriptOf (statement (below maxNesting))

/-- Why a script was refused, and the trees that were finished by then. -/
structure Refusal where
  error : SyntaxError
  loose : List Tree
deriving Repr

/-- The tree of a source. -/
def parse (source : String) : Except Refusal Tree :=
  match tokenize source with
  | ⟨[], some error⟩ => .error ⟨error, []⟩
  | ⟨[], none⟩ => .ok (.branch .script Span.none [])
  | ⟨first :: ahead, fault⟩ =>
    match script ⟨first, ahead, fault⟩ with
    | .done tree _ => .ok tree
    | .failed error loose => .error ⟨error, loose⟩

end RefCheck.Script
