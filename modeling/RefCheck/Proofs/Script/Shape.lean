import RefCheck.Proofs.Script.Reading
import RefCheck.Proofs.Script.Slices

/-!
# The shape of syntax trees

`Fits left role tree` says that a tree may stand in a role, as a statement, as an expression and so
on, where `left` levels of nesting are left. It fixes what stands below each kind of node; only a
function may have a name without a text. `FitsAs` asks more of the names: whatever a rule says of
their texts and spans, as long as the tokens of the source bear it out. The main statement is
`fits_of_parse`: every script that can be read fits, and its names stand in the source.
-/

namespace RefCheck.Script

open RefCheck.Text Reader

/-- What a tree is used as. Chains of binary operators and of members and calls are counted by their
links. -/
inductive Role
  | statement | block | branch | function | functionName | paramList | plainName | declarator
  | expression | operand | unary | binary (links : Nat) | members (links : Nat) | propertyName
deriving DecidableEq, Repr

/-- The kinds of expressions that are a single word other than a name. -/
def NodeKind.isLiteral : NodeKind → Bool
  | number | string | this | null | trueValue | falseValue => true
  | _ => false

def NodeKind.isJump : NodeKind → Bool
  | breakOut | continueOn => true
  | _ => false

/-- What can be assigned to. -/
def NodeKind.isTarget : NodeKind → Bool
  | name | getProp => true
  | _ => false

/-- What the names in a tree have to be: those that have a text, and those of functions without a
name. -/
structure NameRule where
  named (text : String) (span : Span) : Prop
  unnamed (span : Span) : Prop

namespace NameRule

/-- Names have a text. -/
def nonempty : NameRule := ⟨fun text _ => text ≠ "", fun _ => True⟩

/-- Names have a text and stand at their span. An unnamed function has an empty name right behind
the word `function`. -/
def within (source : String) : NameRule where
  named text span := text ≠ "" ∧ OccursAt source.toList span text.toList
  unnamed span := span.stop = span.start ∧
    ∃ start, OccursAt source.toList ⟨start, span.start⟩ "function".toList

/-- What a name with a text and a span may be, as that of a function or as any other. -/
def Holds (rule : NameRule) (text : String) (span : Span) : Prop :=
  rule.named text span ∨ text = "" ∧ rule.unnamed span

/-- The rule holds of what is made of tokens with a property. -/
class Allows (rule : NameRule) (K : Token → Prop) : Prop where
  named {t : Token} : K t → t.kind = .identifier → rule.named t.text t.span
  unnamed {t : Token} : K t → t.kind = .function → rule.unnamed ⟨t.span.stop, t.span.stop⟩

end NameRule

section

variable (rule : NameRule)

/-- Statements, expressions, operands of unary operators and links take a level each. The links of a
chain take one after the other, the first operand none. -/
inductive FitsAs : Nat → Role → Tree → Prop
  | block {n span body} : (∀ t ∈ body, FitsAs n .statement t) →
      FitsAs n .block (.node .block "" span body)
  | plainBranch {n t} : FitsAs n .block t → FitsAs (n + 1) .branch t
  | wrappedBranch {n span t} : FitsAs n .statement t → FitsAs n .branch (.node .block "" span [t])
  | blockStatement {n t} : FitsAs n .block t → FitsAs (n + 1) .statement t
  | var {n span names} : names ≠ [] → (∀ t ∈ names, FitsAs n .declarator t) →
      FitsAs (n + 1) .statement (.node .var "" span names)
  | functionStatement {n t} : FitsAs n .function t → FitsAs (n + 1) .statement t
  | exprResult {n span value} : FitsAs n .expression value →
      FitsAs (n + 1) .statement (.node .exprResult "" span [value])
  | retNothing {n span} : FitsAs (n + 1) .statement (.node .ret "" span [])
  | ret {n span value} : FitsAs n .expression value →
      FitsAs (n + 1) .statement (.node .ret "" span [value])
  | ifThen {n span condition first} : FitsAs n .expression condition → FitsAs n .branch first →
      FitsAs (n + 1) .statement (.node .ifElse "" span [condition, first])
  | ifElse {n span condition first second} : FitsAs n .expression condition →
      FitsAs n .branch first → FitsAs n .branch second →
      FitsAs (n + 1) .statement (.node .ifElse "" span [condition, first, second])
  | label {n span name body} : FitsAs n .plainName name → FitsAs n .statement body →
      FitsAs (n + 1) .statement (.node .label "" span [name, body])
  | jump {n kind span} : kind.isJump → FitsAs (n + 1) .statement (.node kind "" span [])
  | jumpTo {n kind span name} : kind.isJump → FitsAs n .plainName name →
      FitsAs (n + 1) .statement (.node kind "" span [name])
  | empty {n span} : FitsAs (n + 1) .statement (.node .empty "" span [])
  | declared {n text span} : rule.named text span → FitsAs n .declarator (.node .name text span [])
  | initialized {n text span value} : rule.named text span → FitsAs n .expression value →
      FitsAs n .declarator (.node .name text span [value])
  | plainName {n text span} : rule.named text span → FitsAs n .plainName (.node .name text span [])
  | functionName {n text span} : rule.Holds text span →
      FitsAs n .functionName (.node .name text span [])
  | paramList {n span params} : (∀ t ∈ params, FitsAs n .plainName t) →
      FitsAs n .paramList (.node .paramList "" span params)
  | function {n span name params body} : FitsAs n .functionName name → FitsAs n .paramList params →
      FitsAs n .block body → FitsAs n .function (.node .function "" span [name, params, body])
  | name {n t} : FitsAs n .plainName t → FitsAs n (.members 0) t
  | literal {n kind text span} : kind.isLiteral → FitsAs n (.members 0) (.node kind text span [])
  | functionValue {n t} : FitsAs n .function t → FitsAs n (.members 0) t
  | parentheses {n t} : FitsAs n .expression t → FitsAs n (.members 0) t
  | propertyName {n text span} : FitsAs n .propertyName (.node .propertyName text span [])
  | getProp {n links span object property} : FitsAs (n + links + 1) (.members links) object →
      FitsAs n .propertyName property →
      FitsAs (n + links + 1) (.members (links + 1)) (.node .getProp "" span [object, property])
  | call {n links span callee arguments} : FitsAs (n + links + 1) (.members links) callee →
      (∀ t ∈ arguments, FitsAs n .expression t) →
      FitsAs (n + links + 1) (.members (links + 1)) (.node .call "" span (callee :: arguments))
  | members {n links t} : FitsAs n (.members links) t → FitsAs n .unary t
  | unary {n text span operand} : FitsAs n .unary operand →
      FitsAs (n + 1) .unary (.node .unary text span [operand])
  | firstOperand {n t} : FitsAs n .unary t → FitsAs n (.binary 0) t
  | binary {n links text span left right} : FitsAs (n + links + 1) (.binary links) left →
      FitsAs n .operand right →
      FitsAs (n + links + 1) (.binary (links + 1)) (.node .binary text span [left, right])
  | operand {n links t} : FitsAs n (.binary links) t → FitsAs n .operand t
  | expression {n t} : FitsAs n .operand t → FitsAs (n + 1) .expression t
  | assign {n span target value} : FitsAs n .operand target → target.kind.isTarget →
      FitsAs n .expression value →
      FitsAs (n + 1) .expression (.node .assign "" span [target, value])

end

/-- The shape of a tree alone. -/
abbrev Fits : Nat → Role → Tree → Prop := FitsAs .nonempty

section Statements

variable {K : Token → Prop} {rule : NameRule} {P : Cursor → Prop} {n : Nat}
  {statement assignment : Reader Tree}

theorem answers_finish {span : Span} : Answers K P (finish span) (fun _ => True) :=
  answers_isAt (answers_bind answers_advance_any fun _ _ => answers_pure trivial)
    (answers_pure trivial)

theorem answers_block (hs : Always K statement (FitsAs rule n .statement)) :
    Answers K P (block statement) (FitsAs rule n .block) := by
  refine answers_bind answers_expect fun opening _ => ?_
  refine answers_bind (answers_perToken fun fuel => answers_upTo hs fuel) fun body hbody => ?_
  exact answers_bind (answers_holdingAll answers_advance_any) fun closing _ =>
    answers_pure (.block hbody)

theorem answers_name (rule : NameRule) [rule.Allows K]
    (hp : ∀ c, P c → c.current.kind = .identifier) :
    Answers K P advance (fun t => rule.named t.text t.span) :=
  answers_advance fun c hc hk => NameRule.Allows.named hk (hp c hc)

theorem answers_parameter [rule.Allows K] : Answers K P parameter (FitsAs rule n .plainName) :=
  answers_bind answers_expect fun _ ht =>
    answers_pure (.plainName (NameRule.Allows.named ht.2 ht.1))

theorem answers_parameterList [rule.Allows K] :
    Answers K P parameterList (FitsAs rule n .paramList) := by
  refine answers_bind answers_expect fun opening _ => ?_
  have hclose : ∀ parameters : List Tree, (∀ t ∈ parameters, FitsAs rule n .plainName t) →
      Always K (do
        let closing ← holdingAll parameters (expect .closeParen .closeParen)
        return Tree.branch .paramList (opening.span.to closing.span) parameters)
      (FitsAs rule n .paramList) := fun parameters hps =>
    answers_bind (answers_holdingAll answers_expect) fun closing _ => answers_pure (.paramList hps)
  refine answers_isAt ?_ ?_
  · exact answers_bind (Q := fun ts => ts = []) (answers_pure rfl) fun parameters hnone =>
      hclose parameters (by simp [hnone])
  · exact answers_bind (answers_items answers_parameter) fun parameters hps =>
      hclose parameters hps.2

theorem answers_functionName [rule.Allows K] {keyword : Token} (hkeyword : keyword.kind = .function)
    (hk : K keyword) :
    Answers K P (functionName keyword) (FitsAs rule n .functionName) := by
  refine answers_isAt ?_ ?_
  · exact answers_bind (answers_name rule fun _ hc => hc.2) fun _ ht =>
      answers_pure (.functionName (.inl ht))
  · exact answers_pure (.functionName (.inr ⟨rfl, NameRule.Allows.unnamed hk hkeyword⟩))

theorem answers_function [rule.Allows K] (hp : ∀ c, P c → c.current.kind = .function)
    (hs : Always K statement (FitsAs rule n .statement)) :
    Answers K P (function statement) (FitsAs rule n .function) := by
  have hkeyword : Answers K P advance (fun t => t.kind = .function ∧ K t) :=
    answers_advance fun c hc hk => ⟨hp c hc, hk⟩
  refine answers_bind hkeyword fun keyword hkeyword => ?_
  refine answers_bind (Q := FitsAs rule n .functionName)
    (answers_functionName hkeyword.1 hkeyword.2) fun name hname => answers_holding ?_
  refine answers_bind (Q := FitsAs rule n .paramList) answers_parameterList
    fun parameters hps => ?_
  exact answers_bind (answers_holding (answers_block hs)) fun body hbody =>
    answers_pure (.function hname hps hbody)

theorem answers_declarator [rule.Allows K] (ha : Always K assignment (FitsAs rule n .expression)) :
    Answers K P (declarator assignment) (FitsAs rule n .declarator) := by
  refine answers_bind answers_expect fun token ht => answers_holding ?_
  refine answers_bind answers_eat fun more _ => answers_ite (fun _ => ?_) fun _ => ?_
  · exact answers_bind ha fun value hvalue =>
      answers_pure (.initialized (NameRule.Allows.named ht.2 ht.1) hvalue)
  · exact answers_pure (.declared (NameRule.Allows.named ht.2 ht.1))

theorem answers_varStatement [rule.Allows K]
    (ha : Always K assignment (FitsAs rule n .expression)) :
    Answers K P (varStatement assignment) (FitsAs rule (n + 1) .statement) := by
  refine answers_bind answers_advance_any fun keyword _ => ?_
  refine answers_bind (answers_items (answers_declarator ha)) fun names hnames => ?_
  exact answers_bind (answers_holdingAll answers_finish) fun span _ =>
    answers_pure (.var hnames.1 hnames.2)

theorem fits_branch_of_kind {t : Tree} (h : FitsAs rule n .statement t) (hkind : t.kind = .block) :
    FitsAs rule n .branch t := by
  cases h with
  | blockStatement h => exact .plainBranch h
  | functionStatement h => cases h; cases hkind
  | jump h | jumpTo h =>
    cases (hkind : _ = NodeKind.block)
    cases h
  | _ => cases hkind

theorem answers_branch (hs : Always K statement (FitsAs rule n .statement)) :
    Answers K P (branch statement) (FitsAs rule n .branch) := by
  refine answers_bind hs.anywhere fun body hbody => answers_pure ?_
  by_cases h : body.kind = .block
  · rw [if_pos h]
    exact fits_branch_of_kind hbody h
  · rw [if_neg h]
    exact .wrappedBranch hbody

theorem answers_ifStatement (hs : Always K statement (FitsAs rule n .statement))
    (ha : Always K assignment (FitsAs rule n .expression)) :
    Answers K P (ifStatement statement assignment) (FitsAs rule (n + 1) .statement) := by
  refine answers_bind answers_advance_any fun keyword _ => ?_
  refine answers_bind answers_expect fun opening _ => ?_
  refine answers_bind ha fun condition hcondition => answers_holding ?_
  refine answers_bind answers_expect fun closing _ => ?_
  refine answers_bind (answers_branch hs) fun first hfirst => answers_holding ?_
  refine answers_bind answers_eat fun more _ => answers_ite (fun _ => ?_) fun _ => ?_
  · exact answers_bind (answers_branch hs) fun second hsecond =>
      answers_pure (.ifElse hcondition hfirst hsecond)
  · exact answers_pure (.ifThen hcondition hfirst)

theorem answers_returnStatement (ha : Always K assignment (FitsAs rule n .expression)) :
    Answers K P (returnStatement assignment) (FitsAs rule (n + 1) .statement) := by
  refine answers_bind answers_advance_any fun keyword _ => answers_current fun token => ?_
  refine answers_ite (fun _ => ?_) fun _ => ?_
  · exact answers_bind answers_finish fun span _ => answers_pure .retNothing
  · refine answers_bind ha.anywhere fun value hvalue => ?_
    exact answers_bind (answers_holding answers_finish) fun span _ => answers_pure (.ret hvalue)

theorem answers_jumpStatement [rule.Allows K] {kind : NodeKind} (hkind : kind.isJump) :
    Answers K P (jumpStatement kind) (FitsAs rule (n + 1) .statement) := by
  refine answers_bind answers_advance_any fun keyword _ => answers_isAt ?_ ?_
  · refine answers_bind (answers_name rule fun _ hc => hc.2) fun token htext => ?_
    exact answers_bind (answers_holding answers_finish) fun span _ =>
      answers_pure (.jumpTo hkind (.plainName htext))
  · exact answers_bind answers_finish fun span _ => answers_pure (.jump hkind)

theorem answers_labelled [rule.Allows K] (hp : ∀ c, P c → c.current.kind = .identifier)
    (hs : Always K statement (FitsAs rule n .statement)) :
    Answers K P (labelled statement) (FitsAs rule (n + 1) .statement) := by
  refine answers_bind (answers_name rule hp) fun token htext => answers_holding ?_
  refine answers_bind answers_expect fun colon _ => ?_
  exact answers_bind hs fun body hbody => answers_pure (.label (.plainName htext) hbody)

theorem answers_exprStatement (ha : Always K assignment (FitsAs rule n .expression)) :
    Answers K P (exprStatement assignment) (FitsAs rule (n + 1) .statement) := by
  refine answers_bind ha.anywhere fun value hvalue => ?_
  exact answers_bind (answers_holding answers_finish) fun span _ =>
    answers_pure (.exprResult hvalue)

theorem answers_statementBody [rule.Allows K] (hs : Always K statement (FitsAs rule n .statement))
    (ha : Always K assignment (FitsAs rule n .expression)) :
    Always K (statementBody statement assignment) (FitsAs rule (n + 1) .statement) := by
  refine answers_current fun token => ?_
  cases hkind : token.kind with
  | var => exact answers_varStatement ha
  | function =>
    have hp : ∀ c : Cursor, True ∧ c.current = token → c.current.kind = .function :=
      fun c hc => hc.2 ▸ hkind
    exact (answers_function hp hs).imp fun _ => .functionStatement
  | openBrace => exact (answers_block hs).imp fun _ => .blockStatement
  | ifWord => exact answers_ifStatement hs ha
  | ret => exact answers_returnStatement ha
  | breakWord => exact answers_jumpStatement rfl
  | continueWord => exact answers_jumpStatement rfl
  | semicolon => exact answers_bind answers_advance_any fun _ _ => answers_pure .empty
  | identifier =>
    refine answers_following fun next => answers_ite (fun _ => ?_) fun _ => ?_
    · exact answers_labelled (fun c hc => hc.2 ▸ hkind) hs
    · exact answers_exprStatement ha
  | _ => exact answers_exprStatement ha

end Statements

section Expressions

variable {K : Token → Prop} {rule : NameRule} {P : Cursor → Prop}

/-- What the productions answer with that are entered when `n` levels are left after them. A link
goes on with a chain that began with more levels left, one for each link before it. -/
structure Productions.Shapes (K : Token → Prop) (rule : NameRule) (n : Nat) (level : Level) :
    Prop where
  statement : Always K level.statement (FitsAs rule (n + 1) .statement)
  assignment : Always K level.assignment (FitsAs rule (n + 1) .expression)
  unary : Always K level.unary (FitsAs rule n .unary)
  binaryLink : ∀ floor links left, FitsAs rule (n + links + 1) (.binary links) left →
    Always K (level.binaryLink floor left) (FitsAs rule (n + links + 1) .operand)
  postfixLink : ∀ links left, FitsAs rule (n + links + 1) (.members links) left →
    Always K (level.postfixLink left) (FitsAs rule (n + links + 1) .unary)

/-- Production of `below n`, if there is one. -/
def Shaped (K : Token → Prop) (rule : NameRule) (n : Nat) (inner : Option Level) : Prop :=
  ∀ level ∈ inner, ∃ m, n = m + 1 ∧ level.Shapes K rule m

variable {n : Nat} {inner : Option Level}

theorem answers_statement (hinner : Shaped K rule n inner) :
    Always K (statement inner) (FitsAs rule n .statement) := by
  cases inner with
  | none => exact answers_fail
  | some level =>
    obtain ⟨m, rfl, h⟩ := hinner level rfl
    exact h.statement

theorem answers_assignment (hinner : Shaped K rule n inner) :
    Always K (assignment inner) (FitsAs rule n .expression) := by
  cases inner with
  | none => exact answers_fail
  | some level =>
    obtain ⟨m, rfl, h⟩ := hinner level rfl
    exact h.assignment

theorem fits_leaf [rule.Allows K] {t : Token} {kind : NodeKind}
    (hkind : t.kind.leafKind = some kind) (ht : K t) :
    FitsAs rule n (.members 0) (t.toLeaf kind) := by
  cases h : t.kind <;> rw [h] at hkind <;> cases hkind
  case identifier => exact .name (.plainName (NameRule.Allows.named ht h))
  all_goals exact .literal rfl

theorem answers_primary [rule.Allows K] {statement assignment : Reader Tree}
    (hs : Always K statement (FitsAs rule n .statement))
    (ha : Always K assignment (FitsAs rule n .expression)) :
    Answers K P (primary statement assignment) (FitsAs rule n (.members 0)) := by
  refine answers_current fun token => ?_
  cases hleaf : token.kind.leafKind with
  | some kind =>
    refine answers_bind (Q := fun t => FitsAs rule n (.members 0) (t.toLeaf kind)) ?_
      fun _ ht => answers_pure ht
    exact answers_advance fun c hc hk => fits_leaf (hc.2 ▸ hleaf) hk
  | none =>
    cases hkind : token.kind with
    | function =>
      have hp : ∀ c : Cursor, P c ∧ c.current = token → c.current.kind = .function :=
        fun c hc => hc.2 ▸ hkind
      exact (answers_function hp hs).imp fun _ => .functionValue
    | openParen =>
      refine answers_bind answers_advance_any fun _ _ => answers_bind ha fun value hvalue => ?_
      exact answers_bind (answers_holding answers_expect) fun _ _ =>
        answers_pure (.parentheses hvalue)
    | _ => exact answers_missing

theorem answers_arguments {assignment : Reader Tree}
    (ha : Always K assignment (FitsAs rule n .expression)) :
    Answers K P (arguments assignment) (fun ts => ∀ t ∈ ts, FitsAs rule n .expression t) :=
  answers_isAt (answers_pure (by simp)) ((answers_items ha).imp fun _ hts => hts.2)

theorem answers_postfixStep {assignment : Reader Tree} {links : Nat} {left : Tree}
    (ha : Always K assignment (FitsAs rule n .expression))
    (hleft : FitsAs rule (n + links + 1) (.members links) left) :
    Answers K P (postfixStep assignment left)
      (FitsAs rule (n + links + 1) (.members (links + 1))) := by
  refine answers_bind answers_eat fun dot _ => answers_ite (fun _ => ?_) fun _ => ?_
  · exact answers_bind answers_expect fun token _ => answers_pure (.getProp hleft .propertyName)
  · refine answers_bind answers_advance_any fun _ _ => ?_
    refine answers_bind (answers_arguments ha) fun arguments harguments => ?_
    exact answers_bind (answers_holdingAll answers_expect) fun closing _ =>
      answers_pure (.call hleft harguments)

theorem answers_postfixChain (hinner : Shaped K rule n inner) (links : Nat) {left : Tree}
    (hleft : FitsAs rule (n + links) (.members links) left) :
    Answers K P (postfixChain inner left) (FitsAs rule (n + links) .unary) := by
  refine answers_current fun token =>
    answers_ite (fun _ => ?_) fun _ => answers_pure (.members hleft)
  cases inner with
  | none => exact answers_holding answers_fail
  | some level =>
    obtain ⟨m, rfl, h⟩ := hinner level rfl
    rw [Nat.add_right_comm] at hleft ⊢
    exact (h.postfixLink links left hleft).anywhere

theorem answers_unary [rule.Allows K] (hinner : Shaped K rule n inner) :
    Answers K P (unary inner) (FitsAs rule n .unary) := by
  refine answers_current fun token => answers_ite (fun _ => ?_) fun _ => ?_
  · refine answers_bind answers_advance_any fun op _ => ?_
    cases inner with
    | none => exact answers_bind (Q := fun _ => False) answers_fail fun _ h => h.elim
    | some level =>
      obtain ⟨m, rfl, h⟩ := hinner level rfl
      exact answers_bind h.unary fun operand hoperand => answers_pure (.unary hoperand)
  · refine answers_bind (answers_primary (answers_statement hinner) (answers_assignment hinner))
      fun first hfirst => ?_
    exact answers_postfixChain hinner 0 hfirst

theorem answers_binaryChain (hinner : Shaped K rule n inner) {floor : Nat} (links : Nat)
    {left : Tree} (hleft : FitsAs rule (n + links) (.binary links) left) :
    Answers K P (binaryChain inner floor left) (FitsAs rule (n + links) .operand) := by
  refine answers_current fun token =>
    answers_ite (fun _ => ?_) fun _ => answers_pure (.operand hleft)
  cases inner with
  | none => exact answers_holding answers_fail
  | some level =>
    obtain ⟨m, rfl, h⟩ := hinner level rfl
    rw [Nat.add_right_comm] at hleft ⊢
    exact (h.binaryLink floor links left hleft).anywhere

theorem answers_binary [rule.Allows K] (hinner : Shaped K rule n inner) {floor : Nat} :
    Answers K P (binary inner floor) (FitsAs rule n .operand) :=
  answers_bind (answers_unary hinner) fun _ hleft =>
    answers_binaryChain hinner 0 (.firstOperand hleft)

theorem answers_binaryStep [rule.Allows K] (hinner : Shaped K rule n inner) {links : Nat}
    {left : Tree} (hleft : FitsAs rule (n + links + 1) (.binary links) left) :
    Answers K P (binaryStep inner left) (FitsAs rule (n + links + 1) (.binary (links + 1))) := by
  refine answers_bind answers_advance_any fun op _ => ?_
  exact answers_bind (answers_binary hinner) fun right hright => answers_pure (.binary hleft hright)

theorem answers_assignmentBody [rule.Allows K] (hinner : Shaped K rule n inner) :
    Always K (assignmentBody inner) (FitsAs rule (n + 1) .expression) := by
  refine answers_bind (answers_binary hinner) fun target htarget => answers_isAt ?_ ?_
  · refine answers_holding (answers_ite (fun hkind => ?_) fun _ => answers_failAt)
    refine answers_bind answers_advance_any fun _ _ => ?_
    refine answers_bind (answers_assignment hinner) fun value hvalue => answers_pure ?_
    have hplace : target.kind.isTarget := by
      rcases Bool.or_eq_true_iff.mp hkind with h | h <;> rw [of_decide_eq_true h] <;> rfl
    exact .assign htarget hplace hvalue
  · exact answers_pure (.expression htarget)

theorem levelAbove_shapes [rule.Allows K] (hinner : Shaped K rule n inner) :
    (levelAbove inner).Shapes K rule n where
  statement := answers_statementBody (answers_statement hinner) (answers_assignment hinner)
  assignment := answers_assignmentBody hinner
  unary := answers_unary hinner
  binaryLink _ links _ hleft := answers_bind (answers_holding (answers_binaryStep hinner hleft))
    fun _ hlink => answers_binaryChain hinner (links + 1) hlink
  postfixLink links _ hleft := answers_bind
    (answers_holding (answers_postfixStep (answers_assignment hinner) hleft))
    fun _ hlink => answers_postfixChain hinner (links + 1) hlink

theorem below_shaped [rule.Allows K] (left : Nat) : Shaped K rule left (below left) := by
  induction left with
  | zero => simp [Shaped, below]
  | succ left ih =>
    intro level hlevel
    cases hlevel
    exact ⟨left, rfl, levelAbove_shapes ih⟩

end Expressions

/-- The rule holds of all names in a tree. -/
inductive Tree.Named (rule : NameRule) : Tree → Prop
  | node {kind text span children} : (kind = .name → rule.Holds text span) →
      (∀ t ∈ children, Named rule t) → Named rule (.node kind text span children)

theorem Tree.Named.holds {rule : NameRule} {t : Tree} (h : t.Named rule) (hkind : t.kind = .name) :
    rule.Holds t.text t.span := by
  cases h with
  | node hholds => exact hholds hkind

theorem Tree.Named.children {rule : NameRule} {t : Tree} (h : t.Named rule) :
    ∀ c ∈ t.children, c.Named rule := by
  cases h with
  | node _ hchildren => exact hchildren

theorem named_of_fits {rule : NameRule} {n : Nat} {role : Role} {t : Tree}
    (h : FitsAs rule n role t) : t.Named rule := by
  induction h with
  | plainBranch _ ih | blockStatement _ ih | functionStatement _ ih | name _ ih
  | functionValue _ ih | parentheses _ ih | members _ ih | firstOperand _ ih | operand _ ih
  | expression _ ih => exact ih
  | functionName hholds => exact .node (fun _ => hholds) nofun
  | declared htext | plainName htext => exact .node (fun _ => .inl htext) nofun
  | initialized htext _ ih =>
    exact .node (fun _ => .inl htext) (List.forall_mem_singleton.mpr ih)
  | @jump _ kind _ h => cases kind <;> cases h <;> exact .node nofun nofun
  | @jumpTo _ kind _ _ h _ ih =>
    cases kind <;> cases h <;> exact .node nofun (List.forall_mem_singleton.mpr ih)
  | @literal _ kind _ _ h => cases kind <;> cases h <;> exact .node nofun nofun
  | call _ _ ih ihs => exact .node nofun (List.forall_mem_cons.mpr ⟨ih, ihs⟩)
  | _ => exact .node nofun (by simp_all)

/-- A name with a text and nothing below it. -/
def Tree.IsName (t : Tree) : Prop := ∃ name span, t = .node .name name span [] ∧ name ≠ ""

theorem Tree.IsName.kind {t : Tree} (h : t.IsName) : t.kind = .name := by
  obtain ⟨name, span, rfl, -⟩ := h
  rfl

theorem Tree.IsName.text_ne {t : Tree} (h : t.IsName) : t.text ≠ "" := by
  obtain ⟨name, span, rfl, hname⟩ := h
  exact hname

/-- A script is a list of statements. -/
def Tree.IsScript (rule : NameRule) (t : Tree) : Prop :=
  ∃ span body, t = .node .script "" span body ∧ ∀ s ∈ body, FitsAs rule maxNesting .statement s

theorem answers_script {K : Token → Prop} {rule : NameRule} [rule.Allows K] :
    Always K script (Tree.IsScript rule) := by
  refine answers_current fun first => ?_
  have hstatement : Always K (statement (below maxNesting)) (FitsAs rule maxNesting .statement) :=
    answers_statement (below_shaped maxNesting)
  refine answers_bind (answers_perToken fun fuel => answers_upTo hstatement fuel)
    fun body hbody => ?_
  exact answers_current fun last => answers_pure ⟨_, body, rfl, hbody⟩

variable {source : String} {tree : Tree}

/-- A script that can be read is a list of statements whose names are as its tokens are. -/
theorem isScript_of_parse {rule : NameRule} [rule.Allows (Token.CutFrom source.toList)]
    (h : parse source = .ok tree) : tree.IsScript rule := by
  rw [parse] at h
  have hcut := tokenize_cutFrom source
  split at h
  · cases h
  · cases h
    exact ⟨_, [], rfl, by simp⟩
  · next first ahead fault htokens =>
    rw [htokens] at hcut
    obtain ⟨hfirst, hahead⟩ := List.forall_mem_cons.mp hcut
    split at h
    · next found rest hscript =>
      cases h
      exact (answers_script _ ⟨hfirst, hahead⟩ trivial _ _ hscript).1
    · cases h

instance : NameRule.nonempty.Allows (Token.CutFrom source.toList) where
  named hcut := hcut.identifier
  unnamed _ _ := trivial

instance : (NameRule.within source).Allows (Token.CutFrom source.toList) where
  named hcut hkind := ⟨hcut.identifier hkind, hcut.stands (by simp [hkind])⟩
  unnamed {t} hcut hkind := by
    refine ⟨rfl, t.span.start, ?_⟩
    rw [← hcut.function hkind]
    exact hcut.stands (by simp [hkind])

theorem fits_of_parse (h : parse source = .ok tree) : tree.IsScript .nonempty :=
  isScript_of_parse h

/-- The names in a script that can be read stand in its source. -/
theorem names_of_parse (h : parse source = .ok tree) : tree.IsScript (.within source) :=
  isScript_of_parse h

end RefCheck.Script
