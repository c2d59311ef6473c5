import RefCheck.Diagnostic.Basic

/-!
# Levels and the bag

Levels say for some keys how grave their findings are. The bag keeps every report as it was made;
what is seen of them is up to the levels.
-/

namespace RefCheck

/-- Categories by key. A key that was set again has the later category. -/
structure Levels where
  overrides : List (String × Category)
deriving DecidableEq, Repr

namespace Levels

def none : Levels := ⟨[]⟩

/-- Puts a category in place of the one that a key had. -/
def put (key : String) (category : Category) : List (String × Category) → List (String × Category)
  | [] => [(key, category)]
  | (other, c) :: rest =>
    if other = key then (key, category) :: rest else (other, c) :: put key category rest

def set (l : Levels) (key : String) (category : Category) : Levels :=
  ⟨put key category l.overrides⟩

def setAll (l : Levels) (keys : List String) (category : Category) : Levels :=
  keys.foldl (fun l key => l.set key category) l

def get? (l : Levels) (key : String) : Option Category := l.overrides.lookup key

/-- The category that a key has, given its rule's. -/
def levelFor (l : Levels) (key : String) (category : Category) : Category :=
  (l.get? key).getD category

def isEmpty (l : Levels) : Bool := l.overrides.isEmpty

/-- A report as the levels want it, or nothing if it is off. -/
def apply (l : Levels) (d : Diagnostic) : Option Diagnostic :=
  let category := l.levelFor d.key d.category
  if category = .off then Option.none else some { d with category }

end Levels

/-- All reports in order, and the levels through which they are seen. -/
structure Bag where
  levels : Levels
  reports : List Diagnostic
deriving DecidableEq, Repr

namespace Bag

def withLevels (levels : Levels) : Bag := ⟨levels, []⟩

def report (b : Bag) (d : Diagnostic) : Bag := { b with reports := b.reports ++ [d] }

/-- What is seen of the reports. -/
def diagnostics (b : Bag) : List Diagnostic := b.reports.filterMap b.levels.apply

def hasErrors (b : Bag) : Bool := b.diagnostics.any Diagnostic.isError

def withKey (b : Bag) (key : String) : List Diagnostic :=
  b.diagnostics.filter fun d => d.key = key

@[simp] theorem diagnostics_report (b : Bag) (d : Diagnostic) :
    (b.report d).diagnostics = b.diagnostics ++ (b.levels.apply d).toList := by
  cases h : b.levels.apply d <;> simp [report, diagnostics, h]

end Bag

end RefCheck
