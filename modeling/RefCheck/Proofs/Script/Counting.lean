import RefCheck.Proofs.Script.Parsed

/-!
# Counting the nesting

The levels of the grammar say how much nesting is left. Readers of another kind keep a counter
instead, by hand: `enter` raises it or refuses, and what has raised it sets it back, on success and
on failure alike. The productions are the same. Nothing else bounds the recursion or the loops:
calls that go through more counted entries than they may, and loops that go round more often than
there are tokens, come to nothing (`Run.exhausted`).
-/

namespace RefCheck.Script

open RefCheck.Text

/-- The counter, and the highest value it has had. -/
structure Meter where
  depth : Nat
  peak : Nat
deriving DecidableEq, Repr

/-- What comes of a reader that counts. -/
inductive Run (α : Type)
  | done (value : α) (rest : Cursor) (meter : Meter)
  | failed (error : SyntaxError) (loose : List Tree) (meter : Meter)
  | exhausted

/-- A reader that counts. -/
def Metered (α : Type) := Cursor → Meter → Run α

namespace Metered

variable {α : Type}

instance : Monad Metered where
  pure value := fun c m => .done value c m
  bind first next := fun c m =>
    match first c m with
    | .done value rest m => next value rest m
    | .failed error loose m => .failed error loose m
    | .exhausted => .exhausted

/-- A reader that leaves the counter alone. -/
def plain (reader : Reader α) : Metered α := fun c m =>
  match reader c with
  | .done value rest => .done value rest m
  | .failed error loose => .failed error loose m

def holdingAll (trees : List Tree) (reader : Metered α) : Metered α := fun c m =>
  match reader c m with
  | .done value rest m => .done value rest m
  | .failed error loose m => .failed error (trees ++ loose) m
  | .exhausted => .exhausted

/-- Raises the counter, unless it is as high as it may be. -/
def enter (waiting : List Tree) : Metered Unit := fun c m =>
  if maxNesting ≤ m.depth then .failed ⟨.nestedTooDeeply, c.current.span⟩ waiting m
  else .done () c ⟨m.depth + 1, max m.peak (m.depth + 1)⟩

/-- Sets the counter back to what it was before. -/
def restoring (reader : Metered α) : Metered α := fun c m =>
  match reader c m with
  | .done value rest after => .done value rest { after with depth := m.depth }
  | .failed error loose after => .failed error loose { after with depth := m.depth }
  | .exhausted => .exhausted

/-- Raises the counter and calls what stands behind it, if that many entries may be gone through. -/
def entering {σ : Type} (waiting : List Tree) (inner : Option σ) (production : σ → Metered α) :
    Metered α := do
  enter waiting
  match inner with
  | none => fun _ _ => .exhausted
  | some entered => production entered

instance : Parser Metered where
  monadLift := plain
  holdingAll := holdingAll
  spent := fun _ _ => .exhausted
  entering := entering
  restoring := restoring

/-- What may be called where a chain of calls may go through so many counted entries more. -/
def within (entries : Nat) : Option (Productions Metered) := below entries

/-- A whole script, in which no chain of calls may go through more counted entries. -/
def script (entries : Nat) : Metered Tree := scriptOf (statement (within entries))

/-- The tree of a source, or why there is none, with the counter as it is left. Nothing comes of a
run that is exhausted. -/
def parse (entries : Nat) (source : String) : Option (Except Refusal Tree × Meter) :=
  match tokenize source with
  | ⟨[], some error⟩ => some (.error ⟨error, []⟩, ⟨0, 0⟩)
  | ⟨[], none⟩ => some (.ok (.branch .script Span.none []), ⟨0, 0⟩)
  | ⟨first :: ahead, fault⟩ =>
    match script entries ⟨first, ahead, fault⟩ ⟨0, 0⟩ with
    | .done tree _ meter => some (.ok tree, meter)
    | .failed error loose meter => some (.error ⟨error, loose⟩, meter)
    | .exhausted => none

end Metered

end RefCheck.Script
