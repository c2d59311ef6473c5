import RefCheck.Walk.Basic

/-!
# Traces

A visitor that changes nothing and writes down what it sees at each node, with the meaning of the
name if the node is one. It may be told to stop at a node.
-/

namespace RefCheck

open RefCheck.Script

/-- What is seen at a node. -/
structure Sighting where
  place : Place
  kind : NodeKind
  text : String
  sourceName : String
  meaning : Option Var
deriving DecidableEq, Repr

/-- What was seen, and the scopes as they were at the last node. -/
structure Trace where
  sightings : List Sighting
  scopes : Option ScopeTable
deriving DecidableEq, Repr

namespace Trace

def empty : Trace := ⟨[], none⟩

def sighting (place : Place) (s : WalkState Trace) : Sighting where
  place := place
  kind := (s.program.store.kind? (some place.node)).getD .empty
  text := s.program.store.text (some place.node)
  sourceName := s.sourceName place
  meaning := s.lookup? place (s.program.store.text (some place.node))

/-- Writes down a node, and stops right after the one that is asked for. -/
def visitor (stopAt : Option NodeId) : Visitor NodeId Trace := fun place s =>
  let trace : Trace := ⟨s.own.sightings ++ [sighting place s], some s.scopes⟩
  let s := { s with own := trace }
  if stopAt = some place.node then .stopped place.node s else .on s

end Trace

end RefCheck
