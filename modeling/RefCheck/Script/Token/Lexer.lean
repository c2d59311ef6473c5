import RefCheck.Text.CharClass
import RefCheck.Script.Token

/-!
# From characters to tokens

White space and comments are skipped; then the longest lexeme at hand is cut off. A line comment
ends at a line feed, a block comment at the first `*/` after its opening, and a string at its own
quote unless a backslash stands before it. A script that cannot be cut up has the tokens before the
fault and the fault itself.
-/

namespace RefCheck.Script

open RefCheck.Text

/-- What is left of a source, and where it starts. -/
structure Remainder where
  offset : Nat
  chars : List Char
deriving DecidableEq, Repr

/-- What the characters at hand belong to: nothing yet, a line comment, or a block comment with the
place of its opening. -/
inductive Gap
  | open | line | block (opened : Nat)
deriving DecidableEq, Repr

/-- Drops white space and comments. -/
def skipGap : Gap → Nat → List Char → Except SyntaxError Remainder
  | .open, offset, [] => .ok ⟨offset, []⟩
  | .open, offset, '/' :: '/' :: rest => skipGap .line (offset + 2) rest
  | .open, offset, '/' :: '*' :: rest => skipGap (.block offset) (offset + 2) rest
  | .open, offset, c :: rest =>
    if isBlank c then skipGap .open (offset + c.utf8Size) rest else .ok ⟨offset, c :: rest⟩
  | .line, offset, [] => .ok ⟨offset, []⟩
  | .line, offset, c :: rest =>
    skipGap (if c = '\n' then .open else .line) (offset + c.utf8Size) rest
  | .block opened, offset, [] => .error ⟨.unterminatedComment, ⟨opened, offset⟩⟩
  | .block _, offset, '*' :: '/' :: rest => skipGap .open (offset + 2) rest
  | .block opened, offset, c :: rest => skipGap (.block opened) (offset + c.utf8Size) rest

/-- The first lexeme of some characters and what comes after it. -/
structure Lexeme where
  kind : TokenKind
  chars : List Char
  rest : List Char
deriving DecidableEq, Repr

def keywords : List (String × TokenKind) := [
  ("var", .var), ("function", .function), ("return", .ret), ("if", .ifWord), ("else", .elseWord),
  ("break", .breakWord), ("continue", .continueWord), ("this", .this), ("null", .null),
  ("true", .trueWord), ("false", .falseWord), ("typeof", .typeof)]

/-- A word is a keyword, or else an identifier. -/
def wordKind (word : List Char) : TokenKind :=
  (keywords.lookup (String.ofList word)).getD .identifier

/-- The operators of more than one reading, each before those that it starts with. -/
def operators : List (List Char) := [
  ['=', '=', '='], ['!', '=', '='], ['=', '='], ['!', '='], ['<', '='], ['>', '='], ['&', '&'],
  ['|', '|'], ['+'], ['-'], ['*'], ['/'], ['%'], ['<'], ['>']]

/-- The characters that are tokens by themselves. -/
def markKind : Char → Option TokenKind
  | '(' => some .openParen
  | ')' => some .closeParen
  | '\x7b' => some .openBrace
  | '\x7d' => some .closeBrace
  | ',' => some .comma
  | ';' => some .semicolon
  | ':' => some .colon
  | '.' => some .dot
  | _ => none

/-- The rest of a string up to and with its closing quote, and what comes after it. -/
def stringTail (quote : Char) : (escaped : Bool) → List Char → Option (List Char × List Char)
  | _, [] => none
  | true, c :: rest => (stringTail quote false rest).map fun (tail, after) => (c :: tail, after)
  | false, c :: rest =>
    if c = quote then some ([c], rest)
    else if c = '\n' then none
    else (stringTail quote (c = '\\') rest).map fun (tail, after) => (c :: tail, after)

/-- A lexeme of operator characters; `=` and `!` stand alone only where no operator fits. -/
def cutOperator (chars : List Char) : Option Lexeme :=
  match operators.findSome? fun op => (op.isPrefixOf? chars).map (⟨.operator, op, ·⟩) with
  | some lexeme => some lexeme
  | none =>
    match chars with
    | '=' :: rest => some ⟨.equals, ['='], rest⟩
    | '!' :: rest => some ⟨.bang, ['!'], rest⟩
    | _ => none

/-- Cuts the first lexeme off characters that start with neither white space nor a comment. -/
def cut : List Char → Except Fault Lexeme
  | [] => .ok ⟨.endOfInput, [], []⟩
  | c :: rest =>
    if isNameStart c then
      let word := c :: rest.takeWhile isNamePart
      .ok ⟨wordKind word, word, rest.dropWhile isNamePart⟩
    else if c.isDigit then
      .ok ⟨.number, c :: rest.takeWhile isNumberPart, rest.dropWhile isNumberPart⟩
    else if c = '"' || c = '\x27' then
      match stringTail c false rest with
      | some (tail, after) => .ok ⟨.string, c :: tail, after⟩
      | none => .error .unterminatedString
    else
      match markKind c with
      | some kind => .ok ⟨kind, [c], rest⟩
      | none =>
        match cutOperator (c :: rest) with
        | some lexeme => .ok lexeme
        | none => .error (.unexpectedCharacter c)

/-- The text that a token has of its lexeme: a string loses its quotes. -/
def Lexeme.text (l : Lexeme) : List Char :=
  if l.kind = .string then (l.chars.drop 1).dropLast else l.chars

/-- Where a lexeme that cannot be cut off goes wrong: an odd character by itself, else all that is
left. -/
def faultSpan (offset : Nat) (chars : List Char) : Fault → Span
  | .unexpectedCharacter c => ⟨offset, offset + c.utf8Size⟩
  | _ => ⟨offset, offset + byteLength chars⟩

/-- The next token and what is left after it. -/
def scan (r : Remainder) : Except SyntaxError (Token × Remainder) :=
  match skipGap .open r.offset r.chars with
  | .error e => .error e
  | .ok ⟨offset, chars⟩ =>
    match cut chars with
    | .error fault => .error ⟨fault, faultSpan offset chars fault⟩
    | .ok lexeme =>
      let stop := offset + byteLength lexeme.chars
      .ok (⟨lexeme.kind, String.ofList lexeme.text, ⟨offset, stop⟩⟩, ⟨stop, lexeme.rest⟩)

/-- The tokens of a source in order. Without a fault the last one is the end of input. -/
structure Scanned where
  tokens : List Token
  fault : Option SyntaxError
deriving DecidableEq, Repr

/-- Scans at most `fuel` tokens. -/
def scanUpTo : (fuel : Nat) → Remainder → Scanned
  | 0, _ => ⟨[], none⟩
  | fuel + 1, r =>
    match scan r with
    | .error e => ⟨[], some e⟩
    | .ok (token, after) =>
      if token.kind = .endOfInput then ⟨[token], none⟩
      else
        let rest := scanUpTo fuel after
        ⟨token :: rest.tokens, rest.fault⟩

/-- All tokens of a source. Each but the last takes a character at least, so the fuel suffices. -/
def tokenize (source : String) : Scanned :=
  scanUpTo (source.toList.length + 1) ⟨0, source.toList⟩

end RefCheck.Script
