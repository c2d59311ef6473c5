import RefCheck.Text.Span

/-!
# Tokens

The words of a script, each with its text and its place, and the reasons why a script cannot be
read. A syntax error is a reason and a span; its wording is `Fault.message`.
-/

namespace RefCheck.Script

open RefCheck.Text

inductive TokenKind
  | identifier | number | string
  | var | function | ret | ifWord | elseWord | breakWord | continueWord
  | this | null | trueWord | falseWord | typeof
  | openParen | closeParen | openBrace | closeBrace
  | comma | semicolon | colon | dot | equals
  | operator | bang
  | endOfInput
deriving DecidableEq, Repr, Inhabited

/-- A word of a script. The text of a string is what stands between its quotes, and the text at
the end of input is empty. -/
structure Token where
  kind : TokenKind
  text : String
  span : Span
deriving DecidableEq, Repr, Inhabited

/-- What a place in the grammar asks for. -/
inductive Wanted
  | variableName | parameterName | propertyName | expression
  | openParen | closeParen | openBrace | closeBrace | colon
deriving DecidableEq, Repr

def Wanted.describe : Wanted → String
  | variableName => "variable name"
  | parameterName => "parameter name"
  | propertyName => "property name"
  | expression => "expression"
  | openParen => "'('"
  | closeParen => "')'"
  | openBrace => "'\x7b'"
  | closeBrace => "'\x7d'"
  | colon => "':'"

/-- The most levels of nesting that a script may have. -/
def maxNesting : Nat := 256

/-- Why a script cannot be read. -/
inductive Fault
  | unterminatedComment
  | unterminatedString
  | unexpectedCharacter (c : Char)
  | missing (wanted : Wanted) (found : Token)
  | invalidTarget
  | nestedTooDeeply
deriving DecidableEq, Repr

def Fault.message : Fault → String
  | unterminatedComment => "unterminated comment"
  | unterminatedString => "unterminated string literal"
  | unexpectedCharacter c => "unexpected character '" ++ c.toString ++ "'"
  | missing wanted found =>
    "expected " ++ wanted.describe ++ ", found " ++
      (if found.kind = .endOfInput then "end of input" else "'" ++ found.text ++ "'")
  | invalidTarget => "invalid assignment target"
  | nestedTooDeeply => "nesting exceeds " ++ toString maxNesting ++ " levels"

structure SyntaxError where
  fault : Fault
  span : Span
deriving DecidableEq, Repr

def SyntaxError.message (e : SyntaxError) : String := e.fault.message

/-- The message together with the place. -/
def SyntaxError.display (e : SyntaxError) : String :=
  e.message ++ " at offset " ++ toString e.span.start

end RefCheck.Script
