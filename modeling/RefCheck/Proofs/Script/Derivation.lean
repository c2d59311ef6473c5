import RefCheck.Script.Grammar

/-!
# What tokens are read as

`Derives part tokens trees` says that the tokens may be read as the trees, in the place of a
statement, of an expression and so on. There is one rule for each form of the grammar; it says which
tokens stand where and what becomes of them, down to the spans. Nothing is said of levels, and of
operators only that they are operators: an operand may be any chain of them.
-/

namespace RefCheck.Script

open RefCheck.Text

/-- What tokens are read as. The items of a list have commas between them. -/
inductive Part
  | statements | statement | branch | block | function | parameters | name | declarator
  | expression | operand | unary | members
  | list (item : Part)
deriving DecidableEq, Repr

/-- Whether at least one token is needed. -/
def Part.isSolid : Part → Bool
  | statements => false
  | list item => item.isSolid
  | _ => true

/-- The jumps by the words they start with. -/
def TokenKind.jumpKind : TokenKind → Option NodeKind
  | breakWord => some .breakOut
  | continueWord => some .continueOn
  | _ => none

/-- The kind of token that makes a node of the kind on its own. -/
def NodeKind.tokenKind : NodeKind → Option TokenKind
  | name | propertyName => some .identifier
  | number => some .number
  | string => some .string
  | this => some .this
  | null => some .null
  | trueValue => some .trueWord
  | falseValue => some .falseWord
  | _ => none

theorem TokenKind.tokenKind_of_leafKind {token : TokenKind} {kind : NodeKind}
    (h : token.leafKind = some kind) : kind.tokenKind = some token := by
  cases token <;> cases h <;> rfl

/-- The end of a statement: a semicolon or nothing. It is in the span of the statement. -/
inductive Finish (span : Span) : List Token → Span → Prop
  | without : Finish span [] span
  | semicolon {token : Token} : token.kind = .semicolon →
      Finish span [token] (span.to token.span)

inductive Derives : Part → List Token → List Tree → Prop
  -- Sequences
  | nothing : Derives .statements [] []
  | more {ts us : List Token} {t rest} : Derives .statement ts [t] → Derives .statements us rest →
      Derives .statements (ts ++ us) (t :: rest)
  | last {item ts t} : Derives item ts [t] → Derives (.list item) ts [t]
  | comma {item ts us t rest} {comma : Token} : Derives item ts [t] → comma.kind = .comma →
      Derives (.list item) us rest → Derives (.list item) (ts ++ comma :: us) (t :: rest)
  -- Blocks and functions
  | block {ts body} {opening closing : Token} : opening.kind = .openBrace →
      Derives .statements ts body → closing.kind = .closeBrace →
      Derives .block (opening :: (ts ++ [closing]))
        [.node .block "" (opening.span.to closing.span) body]
  | plainBranch {ts t} : Derives .block ts [t] → Derives .branch ts [t]
  | wrappedBranch {ts} {t : Tree} : Derives .statement ts [t] → t.kind ≠ .block →
      Derives .branch ts [.node .block "" t.span [t]]
  | name {token : Token} : token.kind = .identifier →
      Derives .name [token] [.node .name token.text token.span []]
  | noParameters {opening closing : Token} : opening.kind = .openParen →
      closing.kind = .closeParen →
      Derives .parameters [opening, closing]
        [.node .paramList "" (opening.span.to closing.span) []]
  | parameters {ts names} {opening closing : Token} : opening.kind = .openParen →
      Derives (.list .name) ts names → closing.kind = .closeParen →
      Derives .parameters (opening :: (ts ++ [closing]))
        [.node .paramList "" (opening.span.to closing.span) names]
  | function {ps bs params} {body : Tree} {keyword token : Token} : keyword.kind = .function →
      token.kind = .identifier → Derives .parameters ps [params] → Derives .block bs [body] →
      Derives .function (keyword :: token :: (ps ++ bs))
        [.node .function "" (keyword.span.to body.span)
          [.node .name token.text token.span [], params, body]]
  | unnamed {ps bs params} {body : Tree} {keyword : Token} : keyword.kind = .function →
      Derives .parameters ps [params] → Derives .block bs [body] →
      Derives .function (keyword :: (ps ++ bs))
        [.node .function "" (keyword.span.to body.span)
          [.node .name "" ⟨keyword.span.stop, keyword.span.stop⟩ [], params, body]]
  -- Statements
  | blockStatement {ts t} : Derives .block ts [t] → Derives .statement ts [t]
  | functionStatement {ts t} : Derives .function ts [t] → Derives .statement ts [t]
  | declared {token : Token} : token.kind = .identifier →
      Derives .declarator [token] [.node .name token.text token.span []]
  | initialized {ts value} {token equals : Token} : token.kind = .identifier →
      equals.kind = .equals → Derives .expression ts [value] →
      Derives .declarator (token :: equals :: ts) [.node .name token.text token.span [value]]
  | var {ts fs : List Token} {names span} {keyword : Token} : keyword.kind = .var →
      Derives (.list .declarator) ts names →
      Finish (keyword.span.to ((names.getLast?.map declaratorEnd).getD keyword.span)) fs span →
      Derives .statement (keyword :: (ts ++ fs)) [.node .var "" span names]
  | exprResult {ts fs : List Token} {value : Tree} {span} : Derives .expression ts [value] →
      Finish value.span fs span → Derives .statement (ts ++ fs) [.node .exprResult "" span [value]]
  | retNothing {fs : List Token} {span} {keyword : Token} : keyword.kind = .ret →
      Finish keyword.span fs span → Derives .statement (keyword :: fs) [.node .ret "" span []]
  | ret {ts fs : List Token} {value : Tree} {span} {keyword : Token} : keyword.kind = .ret →
      Derives .expression ts [value] → Finish (keyword.span.to value.span) fs span →
      Derives .statement (keyword :: (ts ++ fs)) [.node .ret "" span [value]]
  | ifThen {cs fs : List Token} {condition} {first : Tree} {keyword opening closing : Token} :
      keyword.kind = .ifWord → opening.kind = .openParen → Derives .expression cs [condition] →
      closing.kind = .closeParen → Derives .branch fs [first] →
      Derives .statement (keyword :: opening :: (cs ++ closing :: fs))
        [.node .ifElse "" (keyword.span.to first.span) [condition, first]]
  | ifElse {cs fs ss : List Token} {condition first} {second : Tree}
      {keyword opening closing otherwise : Token} :
      keyword.kind = .ifWord → opening.kind = .openParen → Derives .expression cs [condition] →
      closing.kind = .closeParen → Derives .branch fs [first] → otherwise.kind = .elseWord →
      Derives .branch ss [second] →
      Derives .statement (keyword :: opening :: (cs ++ closing :: (fs ++ otherwise :: ss)))
        [.node .ifElse "" (keyword.span.to second.span) [condition, first, second]]
  | label {ts} {body : Tree} {token colon : Token} : token.kind = .identifier →
      colon.kind = .colon → Derives .statement ts [body] →
      Derives .statement (token :: colon :: ts)
        [.node .label "" (token.span.to body.span)
          [.node .name token.text token.span [], body]]
  | jump {fs : List Token} {kind span} {keyword : Token} : keyword.kind.jumpKind = some kind →
      Finish keyword.span fs span → Derives .statement (keyword :: fs) [.node kind "" span []]
  | jumpTo {fs : List Token} {kind span} {keyword token : Token} :
      keyword.kind.jumpKind = some kind → token.kind = .identifier →
      Finish (keyword.span.to token.span) fs span →
      Derives .statement (keyword :: token :: fs)
        [.node kind "" span [.node .name token.text token.span []]]
  | empty {token : Token} : token.kind = .semicolon →
      Derives .statement [token] [.node .empty "" token.span []]
  -- Expressions
  | leaf {kind} {token : Token} : token.kind.leafKind = some kind →
      Derives .members [token] [.node kind token.text token.span []]
  | functionValue {ts t} : Derives .function ts [t] → Derives .members ts [t]
  | parentheses {ts t} {opening closing : Token} : opening.kind = .openParen →
      Derives .expression ts [t] → closing.kind = .closeParen →
      Derives .members (opening :: (ts ++ [closing])) [t]
  | getProp {ts} {object : Tree} {dot token : Token} : Derives .members ts [object] →
      dot.kind = .dot → token.kind = .identifier →
      Derives .members (ts ++ [dot, token])
        [.node .getProp "" (object.span.to token.span)
          [object, .node .propertyName token.text token.span []]]
  | callNothing {ts} {callee : Tree} {opening closing : Token} : Derives .members ts [callee] →
      opening.kind = .openParen → closing.kind = .closeParen →
      Derives .members (ts ++ [opening, closing])
        [.node .call "" (callee.span.to closing.span) [callee]]
  | call {ts us : List Token} {callee : Tree} {arguments} {opening closing : Token} :
      Derives .members ts [callee] → opening.kind = .openParen →
      Derives (.list .expression) us arguments → closing.kind = .closeParen →
      Derives .members (ts ++ opening :: (us ++ [closing]))
        [.node .call "" (callee.span.to closing.span) (callee :: arguments)]
  | members {ts t} : Derives .members ts [t] → Derives .unary ts [t]
  | unary {ts} {operand : Tree} {op : Token} : op.isUnaryOperator → Derives .unary ts [operand] →
      Derives .unary (op :: ts) [.node .unary op.text (op.span.to operand.span) [operand]]
  | firstOperand {ts t} : Derives .unary ts [t] → Derives .operand ts [t]
  | binary {ts us : List Token} {left right : Tree} {op : Token} : Derives .operand ts [left] →
      op.kind = .operator → (precedence op.text).isSome → Derives .operand us [right] →
      Derives .operand (ts ++ op :: us)
        [.node .binary op.text (left.span.to right.span) [left, right]]
  | expression {ts t} : Derives .operand ts [t] → Derives .expression ts [t]
  | assign {ts us : List Token} {target value : Tree} {equals : Token} :
      Derives .operand ts [target] → target.kind = .name ∨ target.kind = .getProp →
      equals.kind = .equals → Derives .expression us [value] →
      Derives .expression (ts ++ equals :: us)
        [.node .assign "" (target.span.to value.span) [target, value]]

namespace Derives

/-- Nothing but a sequence of statements is read without a token. -/
theorem ne_nil {part : Part} {ts : List Token} {trees : List Tree} (h : Derives part ts trees)
    (hsolid : part.isSolid) : ts ≠ [] := by
  induction h with
  | nothing | more => cases hsolid
  | last _ ih => exact ih hsolid
  | exprResult _ _ ih => exact List.append_ne_nil_of_left_ne_nil (ih rfl) _
  | plainBranch _ ih | wrappedBranch _ _ ih | blockStatement _ ih | functionStatement _ ih
  | functionValue _ ih | members _ ih | firstOperand _ ih | expression _ ih =>
    exact ih rfl
  | _ => simp

end Derives

end RefCheck.Script
