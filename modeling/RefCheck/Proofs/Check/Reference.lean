import RefCheck.Check.Variables
import RefCheck.Proofs.ModuleGraph.Reach
import RefCheck.Proofs.Walk.Mentions

/-!
# What a check has to report

An outline is what the rules need to know of a program: the statements of each script, and the
inputs and modules around them. The reports are computed from it without a walk, scope tables or
placeholders: a name means what the functions around it declare, or else what the first script
declares that declares it.
-/

namespace RefCheck.Check

open RefCheck.Text RefCheck.Script

structure Outline where
  externs : List InputId
  mains : List InputId
  body : InputId → List Tree
  file : InputId → String
  module : InputId → Option ModuleId
  modules : ModuleGraph

/-- What is around the statements of a script. -/
def Context.top (input : InputId) : Context := ⟨.script, false, false, input, []⟩

namespace Outline

/-- The names in the scripts of some inputs. -/
def mentions (o : Outline) (inputs : List InputId) : List Mention :=
  inputs.flatMap fun i => (o.body i).flatMap (Tree.mentions (Context.top i))

theorem mentions_append (o : Outline) (inputs more : List InputId) :
    o.mentions (inputs ++ more) = o.mentions inputs ++ o.mentions more := List.flatMap_append

theorem mem_mentions {o : Outline} {inputs : List InputId} {m : Mention} :
    m ∈ o.mentions inputs ↔
      ∃ i ∈ inputs, m ∈ (o.body i).flatMap (Tree.mentions (Context.top i)) := List.mem_flatMap

theorem input_of_mem_mentions {o : Outline} {inputs : List InputId} {m : Mention}
    (h : m ∈ o.mentions inputs) : m.context.input ∈ inputs := by
  obtain ⟨i, hi, hm⟩ := mem_mentions.mp h
  obtain ⟨t, -, hm⟩ := List.mem_flatMap.mp hm
  rw [Tree.input_of_mem_mentions hm]
  exact hi

/-- The first input that declares a name globally. -/
def declarer? (o : Outline) (name : String) : Option InputId :=
  (o.externs ++ o.mains).find? fun i => name ∈ Tree.forestDeclaredNames .script (o.body i)

def report (o : Outline) (rule : Rule) (m : Mention) (args : List String) : Diagnostic :=
  rule.diagnostic (o.file m.context.input) m.span args

/-- What is reported of names in externs that have no effect there. -/
def noEffect (o : Outline) (ms : List Mention) : List Diagnostic :=
  (ms.filter fun m => !hasEffectBelow m.context.above).map fun m =>
    o.report Rule.nameReferenceInExterns m [m.name]

theorem noEffect_append (o : Outline) (ms more : List Mention) :
    o.noEffect (ms ++ more) = o.noEffect ms ++ o.noEffect more := by
  simp only [noEffect, List.filter_append, List.map_append]

theorem noEffect_eq (o : Outline) (ms : List Mention) :
    o.noEffect ms = ms.flatMap fun m => o.noEffect [m] := by
  induction ms with
  | nil => rfl
  | cons m rest ih =>
    rw [List.flatMap_cons, ← ih, ← noEffect_append]
    rfl

/-- The names of all scripts in the order of a walk. -/
def all (o : Outline) : List Mention := o.mentions (o.externs ++ o.mains)

/-- The rule that is broken by a reference from one module to a global variable of another one. -/
def broken? (sanity : Bool) (g : ModuleGraph) (module other : ModuleId) : Option Rule :=
  if module = other ∨ g.Reaches module other then none
  else if sanity then some Rule.strictModuleDependency
  else if g.Reaches other module then some Rule.violatedModuleDependency
  else some Rule.missingModuleDependency

/-- What is reported of a name that an input declares globally. -/
def crossing (sanity : Bool) (o : Outline) (m : Mention) (declaring : InputId) : List Diagnostic :=
  match o.module m.context.input, o.module declaring with
  | some module, some other =>
    ((broken? sanity o.modules module other).map fun rule =>
      o.report rule m [o.modules.name module, o.modules.name other, m.name]).toList
  | _, _ => []

/-- References within a module break no rule. -/
theorem crossing_self {sanity : Bool} {o : Outline} {m : Mention} {declaring : InputId}
    (h : o.module m.context.input = o.module declaring) : crossing sanity o m declaring = [] := by
  rw [crossing, h]
  cases o.module declaring with
  | none => rfl
  | some module => simp [broken?]

/-- Whether a name has to be declared and is not. -/
def isMissing (o : Outline) (m : Mention) : Bool :=
  !m.context.isLabel && m.name ≠ "" && m.name ∉ m.context.bound && (o.declarer? m.name).isNone

/-- What is reported of a name that is not missing. -/
def remarks (sanity : Bool) (o : Outline) (m : Mention) : List Diagnostic :=
  if m.context.isLabel then []
  else if m.name = "" then
    if m.context.isDeclared then [o.report Rule.invalidFunctionDeclaration m []] else []
  else if m.name ∈ m.context.bound then []
  else
    match o.declarer? m.name with
    | some declaring => o.crossing sanity m declaring
    | none => []

/-- What is reported of names one after the other, when some missing ones are known already. -/
def findings (o : Outline) (known : List String) : List Mention → List Diagnostic
  | [] => []
  | m :: rest =>
    if o.isMissing m then
      if m.name ∈ known then o.findings known rest
      else o.report Rule.undefinedVariable m [m.name] :: o.findings (known ++ [m.name]) rest
    else remarks false o m ++ o.findings known rest

/-- All reports of a check: what has no effect in externs, and then what is found at the names of
all scripts, those of externs first. -/
def reports (o : Outline) : List Diagnostic :=
  o.noEffect (o.mentions o.externs) ++ o.findings [] o.all

end Outline

/-- The inputs that are externs, or those that are not. -/
def inputIds (p : Program) (isExtern : Bool) : List InputId :=
  (List.range p.inputs.length).filter fun i => (p.input? i).map (·.isExtern) = some isExtern

/-- The outline of a program whose scripts have certain statements. -/
def outline (p : Program) (body : InputId → List Tree) : Outline where
  externs := inputIds p true
  mains := inputIds p false
  body := body
  file := p.inputName
  module := p.moduleOf
  modules := p.modules

theorem lt_of_mem_outline {p : Program} {body : InputId → List Tree} {i : InputId}
    (h : i ∈ (outline p body).externs ++ (outline p body).mains) : i < p.inputs.length := by
  rcases List.mem_append.mp h with h | h
  · exact List.mem_range.mp (List.mem_of_mem_filter h)
  · exact List.mem_range.mp (List.mem_of_mem_filter h)

/-- What was found so far, and the names that got placeholders. -/
structure Found where
  reports : List Diagnostic
  mended : List String

namespace Found

def add (f : Found) (d : Diagnostic) : Found := { f with reports := f.reports ++ [d] }

end Found

/-- What a check does at a name, as far as it depends on the outline. -/
def judge (sanity : Bool) (o : Outline) (m : Mention) (f : Found) : Progress VariableError Found :=
  let file := o.file m.context.input
  if m.context.isLabel then .on f
  else if m.name = "" then
    if m.context.above ≠ .function then .stopped (.emptyName file m.span) f
    else if m.context.isDeclared then .on (f.add (o.report Rule.invalidFunctionDeclaration m []))
    else .on f
  else if m.name ∈ m.context.bound then .on f
  else
    match o.declarer? m.name with
    | some declaring => .on { f with reports := f.reports ++ o.crossing sanity m declaring }
    | none =>
      if m.name ∈ f.mended then .on f
      else if m.context.above = .function && !m.context.isDeclared then .on f
      else
        let g := f.add (o.report Rule.undefinedVariable m [m.name])
        if sanity then .stopped (.unexpectedVariable m.name file m.span) g
        else .on { g with mended := g.mended ++ [m.name] }

end RefCheck.Check
