import RefCheck.Proofs.Script.Echoing
import RefCheck.Proofs.Script.Prescribed

/-!
# Functions that are read as statements

The parser does not say whether it read a function as a statement or as a value. Here it takes
notes: whenever a statement has been read, and it is a function, that is written on the function,
where no text is otherwise. The productions are the same ones. `parseNoting_of_parse` says that this
finds the same tree, and notes the functions that stand below nodes that hold statements.
-/

namespace RefCheck.Script

open RefCheck.Text Reader

/-- The text of a function that was read as a statement. -/
def statementNote : String := "statement"

/-- Notes on a function that it was read as a statement. -/
def Tree.note (t : Tree) : Tree :=
  if t.kind = .function then .node .function statementNote t.span t.children else t

def Tree.isNoted (t : Tree) : Bool := t.kind = .function && t.text = statementNote

mutual

/-- A tree without notes. -/
def Tree.plain : Tree → Tree
  | .node kind text span children =>
    .node kind (if kind = .function then "" else text) span (forestPlain children)

def forestPlain : List Tree → List Tree
  | [] => []
  | t :: rest => t.plain :: forestPlain rest

end

/-- The productions of a level, with notes on what is read as a statement. -/
def Productions.noting (level : Level) : Level :=
  { level with
    statement := do
      let tree ← level.statement
      return tree.note }

/-- What can be entered with so many levels left, with notes. -/
def belowNoting : (left : Nat) → Option Level
  | 0 => none
  | left + 1 => some (levelAbove (belowNoting left)).noting

/-- A whole script with notes. -/
def scriptNoting : Reader Tree := do
  let first ← current
  let body ← perToken (upTo .endOfInput .expression (statement (belowNoting maxNesting)))
  let last ← current
  return .branch .script ⟨first.span.start, last.span.stop⟩ body

/-- The tree of a source with notes, if it can be read. -/
def parseNoting (source : String) : Option Tree :=
  match tokenize source with
  | ⟨[], some _⟩ => none
  | ⟨[], none⟩ => some (.branch .script Span.none [])
  | ⟨first :: ahead, fault⟩ =>
    match scriptNoting ⟨first, ahead, fault⟩ with
    | .done tree _ => some tree
    | .failed _ _ => none

mutual

/-- A tree with notes on the functions below kinds that hold statements, and on the tree itself if
it is one and so does what is above it. -/
def Tree.noted (here : Bool) : Tree → Tree
  | .node kind text span children =>
    .node kind (if kind = .function then if here then statementNote else "" else text) span
      (forestNoted kind.holdsStatements children)

def forestNoted (here : Bool) : List Tree → List Tree
  | [] => []
  | t :: rest => t.noted here :: forestNoted here rest

end

theorem forestNoted_eq (here : Bool) (trees : List Tree) :
    forestNoted here trees = trees.map (Tree.noted here) := by
  induction trees with
  | nil => rfl
  | cons t rest ih => rw [forestNoted, ih, List.map_cons]

theorem forestPlain_eq (trees : List Tree) : forestPlain trees = trees.map Tree.plain := by
  induction trees with
  | nil => rfl
  | cons t rest ih => rw [forestPlain, ih, List.map_cons]

section Noted

variable {here : Bool} {kind : NodeKind} {text : String} {span : Span} {children : List Tree}
  {t : Tree}

theorem noted_node : (Tree.node kind text span children).noted here =
    .node kind (if kind = .function then if here then statementNote else "" else text) span
      (children.map (Tree.noted kind.holdsStatements)) := by
  rw [Tree.noted, forestNoted_eq]

theorem plain_node : (Tree.node kind text span children).plain =
    .node kind (if kind = .function then "" else text) span (children.map Tree.plain) := by
  rw [Tree.plain, forestPlain_eq]

@[simp] theorem kind_noted : (t.noted here).kind = t.kind := by
  cases t
  rw [noted_node]
  rfl

@[simp] theorem span_noted : (t.noted here).span = t.span := by
  cases t
  rw [noted_node]
  rfl

@[simp] theorem children_noted :
    (t.noted here).children = t.children.map (Tree.noted t.kind.holdsStatements) := by
  cases t
  rw [noted_node]
  rfl

theorem isNoted_noted : (t.noted here).isNoted = (t.kind = .function && here) := by
  obtain ⟨kind, text, span, children⟩ := t
  rw [noted_node]
  by_cases hkind : kind = .function <;> cases here <;>
    simp [Tree.isNoted, hkind, statementNote]

/-- What is noted of a function by its place may be noted when it has been read. -/
theorem note_noted : (t.noted false).note = t.noted true := by
  obtain ⟨kind, text, span, children⟩ := t
  rw [noted_node, noted_node]
  by_cases hkind : kind = .function <;> simp [Tree.note, Tree.span, hkind]

/-- Where a tree stands matters for functions only. -/
theorem noted_of_ne (hkind : t.kind ≠ .function) : t.noted here = t.noted false := by
  obtain ⟨kind, text, span, children⟩ := t
  have hkind : kind ≠ .function := hkind
  rw [noted_node, noted_node, if_neg hkind, if_neg hkind]

@[simp] theorem noted_branch : (Tree.branch kind span children).noted false =
    .branch kind span (children.map (Tree.noted kind.holdsStatements)) := by
  rw [Tree.branch, noted_node]
  simp [Tree.branch]

theorem noted_leaf (hkind : kind ≠ .function) :
    (Tree.leaf kind text span).noted here = .leaf kind text span := by
  rw [Tree.leaf, noted_node, if_neg hkind]
  rfl

@[simp] theorem noted_name {token : Token} :
    (token.toLeaf .name).noted here = token.toLeaf .name := noted_leaf (by decide)

theorem function_text {n : Nat} {role : Role} (h : Fits n role t) (hkind : t.kind = .function) :
    t.text = "" := by
  induction h with
  | plainBranch _ ih | blockStatement _ ih | functionStatement _ ih | name _ ih
  | functionValue _ ih | parentheses _ ih | members _ ih | firstOperand _ ih | operand _ ih
  | expression _ ih => exact ih hkind
  | function | jump | jumpTo => rfl
  | @literal _ kind _ _ h => cases kind <;> cases h <;> cases hkind
  | _ => cases hkind

/-- Nothing but the notes is added to a node. -/
theorem plain_noted_node (htext : kind = .function → text = "")
    (hchildren : ∀ c ∈ children, ∀ here, (c.noted here).plain = c) :
    ((Tree.node kind text span children).noted here).plain = .node kind text span children := by
  have hsame : (children.map (Tree.noted kind.holdsStatements)).map Tree.plain = children := by
    rw [List.map_map]
    exact (List.map_congr_left fun c hc => hchildren c hc _).trans (List.map_id _)
  rw [noted_node, plain_node, hsame]
  by_cases hkind : kind = .function
  · rw [if_pos hkind, htext hkind]
  · rw [if_neg hkind, if_neg hkind]

theorem plain_noted {n : Nat} {role : Role} (h : Fits n role t) (here : Bool) :
    (t.noted here).plain = t := by
  induction t generalizing n role here with
  | node kind text span children ih =>
    refine plain_noted_node (function_text h) fun c hc here => ?_
    obtain ⟨m, role, hfits⟩ := child_of_fits h c hc
    exact ih c hc hfits here

end Noted

section Statements

variable {statement statement' assignment assignment' : Reader Tree}

theorem echoes_parameter : Echoes (Tree.noted false) parameter parameter :=
  echoes_after fun _ => echoes_answer noted_name

theorem echoes_parameterList : Echoes (Tree.noted false) parameterList parameterList := by
  refine echoes_after fun opening => echoes_after fun empty => echoes_ite (fun _ => ?_) fun _ => ?_
  · refine echoes_bind (echoes_pure (f := List.map (Tree.noted false)) []) fun parameters => ?_
    exact echoes_bind (echoes_holdingAll (echoes_self _)) fun closing => echoes_answer noted_branch
  · refine echoes_bind (echoes_perToken (echoes_separated echoes_parameter)) fun parameters => ?_
    exact echoes_bind (echoes_holdingAll (echoes_self _)) fun closing => echoes_answer noted_branch

theorem echoes_functionName {keyword : Token} :
    Echoes (Tree.noted false) (functionName keyword) (functionName keyword) := by
  refine echoes_after fun named => echoes_ite (fun _ => ?_) fun _ => ?_
  · exact echoes_after fun _ => echoes_answer noted_name
  · exact echoes_answer (noted_leaf (by decide))

theorem echoes_block (hs : Echoes (Tree.noted true) statement statement') :
    Echoes (Tree.noted false) (block statement) (block statement') := by
  refine echoes_after fun opening => ?_
  refine echoes_bind (echoes_perToken (echoes_upTo hs)) fun body => ?_
  exact echoes_bind (echoes_holdingAll (echoes_self _)) fun closing => echoes_answer noted_branch

theorem echoes_function (hs : Echoes (Tree.noted true) statement statement') :
    Echoes (Tree.noted false) (function statement) (function statement') := by
  refine echoes_after fun keyword => ?_
  refine echoes_bind echoes_functionName fun name => echoes_holding ?_
  refine echoes_bind echoes_parameterList fun parameters => ?_
  refine echoes_bind (echoes_holding (echoes_block hs)) fun body => echoes_answer ?_
  rw [noted_branch, span_noted]
  rfl

theorem echoes_declarator (ha : Echoes (Tree.noted false) assignment assignment') :
    Echoes (Tree.noted false) (declarator assignment) (declarator assignment') := by
  refine echoes_after fun token => echoes_holding (echoes_after fun initialized => ?_)
  refine echoes_ite (fun _ => ?_) fun _ => echoes_answer noted_name
  exact echoes_bind ha fun value => echoes_answer noted_node

theorem declaratorEnd_noted {t : Tree} : declaratorEnd (t.noted false) = declaratorEnd t := by
  rw [declaratorEnd, declaratorEnd, children_noted, List.getLast?_map]
  cases t.children.getLast? <;> simp

theorem echoes_varStatement (ha : Echoes (Tree.noted false) assignment assignment') :
    Echoes (Tree.noted false) (varStatement assignment) (varStatement assignment') := by
  refine echoes_after fun keyword => ?_
  refine echoes_bind (echoes_perToken (echoes_separated (echoes_declarator ha))) fun names => ?_
  have hlast : ((names.map (Tree.noted false)).getLast?.map declaratorEnd).getD keyword.span =
      (names.getLast?.map declaratorEnd).getD keyword.span := by
    rw [List.getLast?_map, Option.map_map]
    exact congrArg (fun f => (names.getLast?.map f).getD keyword.span)
      (funext fun _ => declaratorEnd_noted)
  dsimp only
  rw [hlast]
  exact echoes_bind (echoes_holdingAll (echoes_self _)) fun span => echoes_answer noted_branch

/-- A statement becomes a branch. A block stays itself, any other one gets a block above it. -/
theorem echoes_branch (hs : Echoes (Tree.noted true) statement statement') :
    Echoes (Tree.noted false) (branch statement) (branch statement') := by
  refine echoes_bind hs fun body => echoes_answer ?_
  rw [kind_noted, span_noted]
  split
  · next hkind => exact (noted_of_ne (by rw [hkind]; nofun)).symm
  · exact noted_branch

theorem echoes_ifStatement (hs : Echoes (Tree.noted true) statement statement')
    (ha : Echoes (Tree.noted false) assignment assignment') :
    Echoes (Tree.noted false) (ifStatement statement assignment)
      (ifStatement statement' assignment') := by
  refine echoes_after fun keyword => echoes_after fun _ => ?_
  refine echoes_bind ha fun condition => echoes_holding (echoes_after fun _ => ?_)
  refine echoes_bind (echoes_branch hs) fun first => echoes_holding (echoes_after fun more => ?_)
  refine echoes_ite (fun _ => ?_) fun _ => echoes_answer ?_
  · refine echoes_bind (echoes_branch hs) fun second => echoes_answer ?_
    rw [noted_branch, span_noted]
    rfl
  · rw [noted_branch, span_noted]
    rfl

theorem echoes_returnStatement (ha : Echoes (Tree.noted false) assignment assignment') :
    Echoes (Tree.noted false) (returnStatement assignment) (returnStatement assignment') := by
  refine echoes_after fun keyword => echoes_after fun token => ?_
  refine echoes_ite (fun _ => ?_) fun _ => ?_
  · exact echoes_after fun span => echoes_answer noted_branch
  · refine echoes_bind ha fun value => ?_
    rw [span_noted]
    exact echoes_bind (echoes_holding (echoes_self _)) fun span => echoes_answer noted_branch

theorem echoes_jumpStatement {kind : NodeKind} :
    Echoes (Tree.noted false) (jumpStatement kind) (jumpStatement kind) := by
  refine echoes_after fun keyword => echoes_after fun named => echoes_ite (fun _ => ?_) fun _ => ?_
  · refine echoes_after fun token => ?_
    refine echoes_after fun span => echoes_answer ?_
    rw [noted_branch, List.map_singleton, noted_name]
  · exact echoes_after fun span => echoes_answer noted_branch

/-- Below a label stands a statement. -/
theorem echoes_labelled (hs : Echoes (Tree.noted true) statement statement') :
    Echoes (Tree.noted false) (labelled statement) (labelled statement') := by
  refine echoes_after fun token => echoes_holding (echoes_after fun _ => ?_)
  refine echoes_bind hs fun body => echoes_answer ?_
  rw [noted_branch, span_noted]
  simp [NodeKind.holdsStatements]

theorem echoes_exprStatement (ha : Echoes (Tree.noted false) assignment assignment') :
    Echoes (Tree.noted false) (exprStatement assignment) (exprStatement assignment') := by
  refine echoes_bind ha fun value => ?_
  rw [span_noted]
  exact echoes_bind (echoes_holding (echoes_self _)) fun span => echoes_answer noted_branch

theorem echoes_statementBody (hs : Echoes (Tree.noted true) statement statement')
    (ha : Echoes (Tree.noted false) assignment assignment') :
    Echoes (Tree.noted false) (statementBody statement assignment)
      (statementBody statement' assignment') := by
  refine echoes_after fun token => ?_
  cases token.kind with
  | var => exact echoes_varStatement ha
  | function => exact echoes_function hs
  | openBrace => exact echoes_block hs
  | ifWord => exact echoes_ifStatement hs ha
  | ret => exact echoes_returnStatement ha
  | breakWord | continueWord => exact echoes_jumpStatement
  | semicolon => exact echoes_after fun _ => echoes_answer noted_branch
  | identifier =>
    refine echoes_after fun next => echoes_ite (fun _ => ?_) fun _ => ?_
    · exact echoes_labelled hs
    · exact echoes_exprStatement ha
  | _ => exact echoes_exprStatement ha

end Statements

section Expressions

variable {inner inner' : Option Level} {statement statement' assignment assignment' : Reader Tree}

/-- What is noted by the productions of a level: statements are noted, values are not. -/
structure Productions.Notes (level level' : Level) : Prop where
  statement : Echoes (Tree.noted true) level.statement level'.statement
  assignment : Echoes (Tree.noted false) level.assignment level'.assignment
  unary : Echoes (Tree.noted false) level.unary level'.unary
  binaryLink : ∀ floor left, Echoes (Tree.noted false) (level.binaryLink floor left)
    (level'.binaryLink floor (left.noted false))
  postfixLink : ∀ left, Echoes (Tree.noted false) (level.postfixLink left)
    (level'.postfixLink (left.noted false))

/-- The same, if there is a level to enter. -/
def Notes (inner inner' : Option Level) : Prop :=
  ∀ level ∈ inner, ∃ level' ∈ inner', level.Notes level'

theorem Notes.nested {α β : Type} {f : α → β} {production : Level → Reader α}
    {production' : Level → Reader β} (h : Notes inner inner')
    (hproduction : ∀ level level' : Level, level.Notes level' →
      Echoes f (production level) (production' level')) :
    Echoes f (nested inner production) (nested inner' production') := by
  cases inner with
  | none => exact echoes_fail
  | some level =>
    obtain ⟨level', rfl, hlevel⟩ := h level rfl
    exact hproduction level level' hlevel

theorem echoes_statement (h : Notes inner inner') :
    Echoes (Tree.noted true) (Script.statement inner) (Script.statement inner') :=
  h.nested fun _ _ hlevel => hlevel.statement

theorem echoes_assignment (h : Notes inner inner') :
    Echoes (Tree.noted false) (Script.assignment inner) (Script.assignment inner') :=
  h.nested fun _ _ hlevel => hlevel.assignment

theorem leafKind_ne {token : TokenKind} {kind : NodeKind} (h : token.leafKind = some kind) :
    kind ≠ .function := by
  rintro rfl
  cases token <;> cases h

theorem echoes_primary (hs : Echoes (Tree.noted true) statement statement')
    (ha : Echoes (Tree.noted false) assignment assignment') :
    Echoes (Tree.noted false) (primary statement assignment) (primary statement' assignment') := by
  refine echoes_after fun token => ?_
  cases hleaf : token.kind.leafKind with
  | some kind => exact echoes_after fun _ => echoes_answer (noted_leaf (leafKind_ne hleaf))
  | none =>
    cases token.kind with
    | function => exact echoes_function hs
    | openParen =>
      refine echoes_after fun _ => echoes_bind ha fun value => ?_
      exact echoes_bind (echoes_holding (echoes_self _)) fun _ => echoes_pure value
    | _ => exact echoes_missing

theorem echoes_arguments (ha : Echoes (Tree.noted false) assignment assignment') :
    Echoes (List.map (Tree.noted false)) (arguments assignment) (arguments assignment') :=
  echoes_after fun _ => echoes_ite (fun _ => echoes_pure []) fun _ =>
    echoes_perToken (echoes_separated ha)

theorem echoes_postfixStep (ha : Echoes (Tree.noted false) assignment assignment') (left : Tree) :
    Echoes (Tree.noted false) (postfixStep assignment left)
      (postfixStep assignment' (left.noted false)) := by
  refine echoes_after fun dot => echoes_ite (fun _ => ?_) fun _ => ?_
  · refine echoes_after fun token => echoes_answer ?_
    have hproperty : (token.toLeaf .propertyName).noted false = token.toLeaf .propertyName :=
      noted_leaf (by decide)
    rw [noted_branch, span_noted, List.map_cons, List.map_singleton]
    exact congrArg (fun property => Tree.branch _ _ [_, property]) hproperty
  · refine echoes_after fun _ => echoes_bind (echoes_arguments ha) fun arguments => ?_
    refine echoes_bind (echoes_holdingAll (echoes_self _)) fun closing => echoes_answer ?_
    rw [noted_branch, span_noted]
    rfl

theorem echoes_postfixChain (h : Notes inner inner') (left : Tree) :
    Echoes (Tree.noted false) (postfixChain inner left)
      (postfixChain inner' (left.noted false)) := by
  refine echoes_after fun token => echoes_ite (fun _ => ?_) fun _ => echoes_pure left
  cases inner with
  | none => exact echoes_holding_fail
  | some level =>
    obtain ⟨level', rfl, hlevel⟩ := h level rfl
    exact hlevel.postfixLink left

theorem echoes_unary (h : Notes inner inner') :
    Echoes (Tree.noted false) (unary inner) (unary inner') := by
  refine echoes_after fun token => echoes_ite (fun _ => ?_) fun _ => ?_
  · refine echoes_after fun op => ?_
    refine echoes_bind (h.nested fun _ _ hlevel => hlevel.unary) fun operand => echoes_answer ?_
    rw [noted_node, span_noted]
    rfl
  · refine echoes_bind (echoes_primary (echoes_statement h) (echoes_assignment h)) fun first => ?_
    exact echoes_postfixChain h first

theorem echoes_binaryChain (h : Notes inner inner') (floor : Nat) (left : Tree) :
    Echoes (Tree.noted false) (binaryChain inner floor left)
      (binaryChain inner' floor (left.noted false)) := by
  refine echoes_after fun token => echoes_ite (fun _ => ?_) fun _ => echoes_pure left
  cases inner with
  | none => exact echoes_holding_fail
  | some level =>
    obtain ⟨level', rfl, hlevel⟩ := h level rfl
    exact hlevel.binaryLink floor left

theorem echoes_binary (h : Notes inner inner') (floor : Nat) :
    Echoes (Tree.noted false) (binary inner floor) (binary inner' floor) :=
  echoes_bind (echoes_unary h) fun left => echoes_binaryChain h floor left

theorem echoes_binaryStep (h : Notes inner inner') (left : Tree) :
    Echoes (Tree.noted false) (binaryStep inner left) (binaryStep inner' (left.noted false)) := by
  refine echoes_after fun op => echoes_bind (echoes_binary h _) fun right => echoes_answer ?_
  rw [noted_node, span_noted, span_noted]
  rfl

theorem echoes_assignmentBody (h : Notes inner inner') :
    Echoes (Tree.noted false) (assignmentBody inner) (assignmentBody inner') := by
  refine echoes_bind (echoes_binary h 0) fun target => echoes_after fun assigned => ?_
  refine echoes_ite (fun _ => echoes_holding ?_) fun _ => echoes_pure target
  rw [kind_noted]
  refine echoes_ite (fun _ => ?_) fun _ => echoes_failAt
  refine echoes_after fun _ => echoes_bind (echoes_assignment h) fun value => echoes_answer ?_
  rw [noted_branch, span_noted, span_noted]
  rfl

theorem levelAbove_notes (h : Notes inner inner') :
    (levelAbove inner).Notes (levelAbove inner').noting where
  statement := echoes_then (echoes_statementBody (echoes_statement h) (echoes_assignment h))
    fun _ => note_noted
  assignment := echoes_assignmentBody h
  unary := echoes_unary h
  binaryLink floor left := echoes_bind (echoes_holding (echoes_binaryStep h left))
    fun link => echoes_binaryChain h floor link
  postfixLink left := echoes_bind
    (echoes_holding (echoes_postfixStep (echoes_assignment h) left))
    fun link => echoes_postfixChain h link

theorem below_notes (left : Nat) : Notes (below left) (belowNoting left) := by
  induction left with
  | zero => simp [Notes, below]
  | succ left ih =>
    rintro _ ⟨⟩
    exact ⟨_, rfl, levelAbove_notes ih⟩

end Expressions

theorem echoes_script : Echoes (Tree.noted false) script scriptNoting := by
  refine echoes_after fun first => ?_
  refine echoes_bind (echoes_perToken (echoes_upTo (echoes_statement (below_notes maxNesting))))
    fun body => ?_
  exact echoes_after fun last => echoes_answer noted_branch

variable {source : String} {tree : Tree}

/-- With notes a source is read as the same tree, in which the functions are noted that stand below
nodes that hold statements. -/
theorem parseNoting_of_parse (h : parse source = .ok tree) :
    parseNoting source = some (tree.noted false) := by
  rw [parse] at h
  split at h
  · cases h
  · next htokens =>
    cases h
    rw [parseNoting, htokens, noted_branch]
    rfl
  · next first ahead fault htokens =>
    split at h
    · next found rest hscript =>
      cases h
      rw [parseNoting, htokens]
      simp only [echoes_script _ _ _ hscript]
    · cases h

theorem plain_of_parse (h : parse source = .ok tree) : (tree.noted false).plain = tree := by
  obtain ⟨span, body, rfl, hbody⟩ := fits_of_parse h
  exact plain_noted_node nofun fun c hc here => plain_noted (hbody c hc) here

end RefCheck.Script
