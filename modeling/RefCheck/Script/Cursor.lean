import RefCheck.Script.Token.Lexer
import RefCheck.Script.Tree

/-!
# Reading tokens one by one

A reader takes a cursor and either answers with a value and the cursor after it, or fails. A
failure keeps the trees that were finished before it and that no larger tree holds yet, in the
order in which they were finished: `holding` says which tree is waiting while a reader runs.
-/

namespace RefCheck.Script

open RefCheck.Text

/-- The token at hand and those after it. The fault, if any, stands after the last token. -/
structure Cursor where
  current : Token
  ahead : List Token
  fault : Option SyntaxError
deriving DecidableEq, Repr

inductive Outcome (α : Type)
  | done (value : α) (rest : Cursor)
  | failed (error : SyntaxError) (loose : List Tree)

/-- A reader of tokens. -/
def Reader (α : Type) := Cursor → Outcome α

namespace Reader

variable {α : Type}

instance : Monad Reader where
  pure value := fun c => .done value c
  bind first next := fun c =>
    match first c with
    | .done value rest => next value rest
    | .failed error loose => .failed error loose

/-- Fails at the token at hand. -/
def fail (fault : Fault) : Reader α := fun c => .failed ⟨fault, c.current.span⟩ []

/-- Fails at a span. -/
def failAt (fault : Fault) (span : Span) : Reader α := fun _ => .failed ⟨fault, span⟩ []

/-- Runs a reader while some finished trees wait to be put into a larger one. -/
def holdingAll (trees : List Tree) (reader : Reader α) : Reader α := fun c =>
  match reader c with
  | .done value rest => .done value rest
  | .failed error loose => .failed error (trees ++ loose)

/-- The token at hand, which stays. -/
def current : Reader Token := fun c => .done c.current c

def isAt (kind : TokenKind) : Reader Bool := fun c => .done (c.current.kind = kind) c

/-- Takes the token at hand. The one after it has to be there. -/
def advance : Reader Token := fun c =>
  match c.ahead, c.fault with
  | next :: rest, _ => .done c.current { c with current := next, ahead := rest }
  | [], some error => .failed error []
  | [], none => .done c.current c

/-- The kind of the token after the one at hand. -/
def following : Reader TokenKind := fun c =>
  match c.ahead, c.fault with
  | next :: _, _ => .done next.kind c
  | [], some error => .failed error []
  | [], none => .done c.current.kind c

/-- Takes the token at hand if it is of the kind, and says whether it was. -/
def eat (kind : TokenKind) : Reader Bool := do
  if ← isAt kind then
    let _ ← advance
    return true
  else
    return false

def missing (wanted : Wanted) : Reader α := do
  let token ← current
  fail (.missing wanted token)

/-- Takes the token at hand, which has to be of the kind. -/
def expect (kind : TokenKind) (wanted : Wanted) : Reader Token := do
  if ← isAt kind then advance else missing wanted

/-- As many rounds as there are tokens, and one more. -/
def rounds : Reader Nat := fun c => .done (c.ahead.length + 1) c

/-- Runs a production, if there is a level left for it. -/
def entering {σ : Type} (waiting : List Tree) (inner : Option σ) (production : σ → Reader α) :
    Reader α :=
  match inner with
  | none => holdingAll waiting (fail .nestedTooDeeply)
  | some level => production level

end Reader

/-- What a grammar asks of its readers. Every reader of tokens is one of them; how the nesting is
counted is left open. -/
class Parser (m : Type → Type) extends Monad m, MonadLift Reader m where
  /-- Runs a reader while some finished trees wait to be put into a larger one. -/
  holdingAll {α : Type} (trees : List Tree) (reader : m α) : m α
  /-- What comes of a loop that has no round left. -/
  spent : m (List Tree)
  /-- Takes a level for a production and runs it, if a level is left. Some finished trees wait. -/
  entering {σ α : Type} (waiting : List Tree) (inner : Option σ) (production : σ → m α) : m α
  /-- Gives back the levels that a reader took. -/
  restoring {α : Type} (reader : m α) : m α

/-- The levels that are left are handed on, so none has to be given back. -/
instance : Parser Reader where
  monadLift reader := reader
  holdingAll := Reader.holdingAll
  spent := return []
  entering := Reader.entering
  restoring reader := reader

export Parser (holdingAll entering restoring)

section Combinators

open Reader (eat isAt missing)

variable {m : Type → Type} [Parser m] {α : Type}

/-- Runs a reader while a finished tree waits to be put into a larger one. -/
def holding (tree : Tree) (reader : m α) : m α := holdingAll [tree] reader

/-- Runs a production one level further in. -/
def nested {σ : Type} (inner : Option σ) (production : σ → m α) : m α :=
  restoring (entering [] inner production)

/-- Gives a loop as many rounds as there are tokens, and one more. -/
def perToken (loop : Nat → m α) : m α := do loop (← Reader.rounds)

theorem perToken_apply (loop : Nat → Reader α) (c : Cursor) :
    perToken loop c = loop (c.ahead.length + 1) c := rfl

/-- Reads items with commas between them. -/
def separated (item : m Tree) : (rounds : Nat) → m (List Tree)
  | 0 => Parser.spent
  | rounds + 1 => do
    let first ← item
    holding first do
      if ← eat .comma then
        let rest ← separated item rounds
        return first :: rest
      else
        return [first]

/-- Reads items up to a token of the closing kind, which stays. -/
def upTo (closing : TokenKind) (wanted : Wanted) (item : m Tree) : (rounds : Nat) → m (List Tree)
  | 0 => Parser.spent
  | rounds + 1 => do
    if ← isAt closing then
      return []
    else if ← isAt .endOfInput then
      missing wanted
    else
      let first ← item
      let rest ← holding first (upTo closing wanted item rounds)
      return first :: rest

end Combinators

end RefCheck.Script
