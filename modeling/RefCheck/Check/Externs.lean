import RefCheck.Walk.Basic
import RefCheck.Check.Rules

/-!
# References in externs

Externs never run, so a name in them that neither declares anything nor is the object of a member
has no effect.
-/

namespace RefCheck.Check

open RefCheck.Script

/-- Whether a name is at home below a node of the kind: there it declares, or a member of it is
meant. -/
def hasEffectBelow : NodeKind → Bool
  | .var | .function | .getProp | .paramList => true
  | _ => false

/-- Reports names that have no effect. It never stops the walk. -/
def externNames : Visitor Empty Unit := fun place s =>
  let store := s.program.store
  if store.kind? (some place.node) = some .name &&
      !((store.kind? place.parent).map hasEffectBelow).getD false then
    .on (s.report place Rule.nameReferenceInExterns [store.text (some place.node)])
  else
    .on s

/-- Checks the names below one root. -/
def externs (p : Program) (root : Option NodeId) : Program :=
  (Walk.roots externNames p [root] ()).state.program

end RefCheck.Check
