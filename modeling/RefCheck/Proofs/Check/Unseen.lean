import Mathlib.Data.Set.List
import RefCheck.Proofs.Check.Integrity
import RefCheck.Proofs.Check.Ownership

/-!
# Sources that cannot be parsed

Two sessions are alike if they agree on all but their nodes, and the scripts in them have the same
statements. What happens in alike sessions is answered alike and leaves them alike. A source that
cannot be parsed adds loose nodes only, so it leaves a session like the one without it, and from
then on nobody sees a difference.
-/

namespace RefCheck

open RefCheck.Text RefCheck.Script

/-- An input apart from where its script stands. -/
def Input.unrooted (input : Input) : Input := { input with root := 0 }

namespace Program

variable {p q : Program} {i : InputId}

/-- Programs that are the same apart from their nodes. -/
structure Agrees (p q : Program) : Prop where
  inputs : p.inputs.map Input.unrooted = q.inputs.map Input.unrooted
  modules : p.modules = q.modules
  bag : p.bag = q.bag

namespace Agrees

theorem length (h : p.Agrees q) : p.inputs.length = q.inputs.length := by
  simpa using congrArg List.length h.inputs

/-- What is read off an input is the same, unless it is its place. -/
theorem map_input? {α : Type} (h : p.Agrees q) {read : Input → α}
    (hread : ∀ input : Input, read input.unrooted = read input) (i : InputId) :
    (p.input? i).map read = (q.input? i).map read := by
  have hsame : ∀ r : Program,
      (r.input? i).map read = (r.inputs.map Input.unrooted)[i]?.map read := by
    intro r
    rw [input?, List.getElem?_map, Option.map_map]
    exact congrArg (Option.map · _) (funext fun input => (hread input).symm)
  rw [hsame, hsame, h.inputs]

theorem inputName (h : p.Agrees q) : p.inputName = q.inputName :=
  funext fun i => congrArg (·.getD "") (h.map_input? (fun _ => rfl) i)

theorem moduleOf (h : p.Agrees q) : p.moduleOf = q.moduleOf := by
  have hjoin : ∀ (r : Program) i, r.moduleOf i = ((r.input? i).map (·.module)).join := by
    intro r i
    rw [Program.moduleOf]
    cases r.input? i <;> rfl
  funext i
  rw [hjoin, hjoin, h.map_input? (fun _ => rfl) i]

theorem statements (h : p.Agrees q) : p.statements = q.statements := by
  funext i
  rw [Program.statements, Program.statements, h.map_input? (fun _ => rfl) i]

theorem inputIds (h : p.Agrees q) (isExtern : Bool) :
    Check.inputIds p isExtern = Check.inputIds q isExtern := by
  rw [Check.inputIds, Check.inputIds, h.length]
  refine List.filter_congr fun i _ => ?_
  rw [h.map_input? (fun _ => rfl) i]

theorem outline (h : p.Agrees q) (body : InputId → List Tree) :
    Check.outline p body = Check.outline q body := by
  simp only [Check.outline, h.inputIds, h.inputName, h.moduleOf, h.modules]

theorem append (h : p.Agrees q) {r t : Program} {input other : Input}
    (hr : r.inputs = p.inputs ++ [input]) (ht : t.inputs = q.inputs ++ [other])
    (hinput : input.unrooted = other.unrooted) (hmodules : r.modules = t.modules)
    (hbag : r.bag = t.bag) : r.Agrees t where
  inputs := by
    rw [hr, ht, List.map_append, List.map_append, h.inputs, List.map_singleton,
      List.map_singleton, hinput]
  modules := hmodules
  bag := hbag

theorem addParsed (h : p.Agrees q) (name source : String) (module : Option ModuleId)
    (isExtern : Bool) :
    (p.addParsed name source module isExtern).1.Agrees
        (q.addParsed name source module isExtern).1 ∧
      (p.addParsed name source module isExtern).2 =
        (q.addParsed name source module isExtern).2 := by
  cases hparse : parse source with
  | error refusal =>
    rw [Program.addParsed_of_error hparse, Program.addParsed_of_error hparse]
    exact ⟨⟨h.inputs, h.modules, h.bag⟩, rfl⟩
  | ok tree =>
    rw [Program.addParsed_of_ok hparse, Program.addParsed_of_ok hparse]
    refine ⟨h.append rfl rfl ?_ h.modules h.bag, congrArg Except.ok h.length⟩
    rw [Input.unrooted, Input.unrooted, h.length]

theorem newExtern (h : p.Agrees q) (name : String) :
    (p.newExtern name).1.Agrees (q.newExtern name).1 := by
  refine h.append rfl rfl ?_ h.modules h.bag
  rw [Input.unrooted, Input.unrooted, h.length]

theorem edit (h : p.Agrees q) (e : Edit) : (p.edit e).Agrees (q.edit e) := by
  cases e with
  | addModule name =>
    exact ⟨h.inputs, congrArg (fun g : ModuleGraph => (g.add name).1) h.modules, h.bag⟩
  | addDependency source target =>
    exact ⟨h.inputs, congrArg (·.addDependency source target) h.modules, h.bag⟩
  | addExtern name source => exact (h.addParsed name source none true).1
  | addSource name source module => exact (h.addParsed name source module false).1
  | newExtern name => exact h.newExtern name

end Agrees

end Program

namespace Check

variable {p q : Program} {plots others : List Plot} {repairs found : Repairs}
  {names : List String} {s t : Session}

/-- How something went. -/
inductive Answer
  | module (id : ModuleId)
  | added (result : Except SyntaxError InputId)
  | checked (error : Option VariableError)
  | done

/-- What can be seen of a session, its nodes apart. A checker shows whether it is a sanity checker,
in which input it puts placeholders, and for which names. -/
@[ext] structure View where
  inputs : List Input
  modules : ModuleGraph
  bag : Bag
  checkers : List (Bool × Option InputId × List String)

namespace Session

def answer (s : Session) : Action → Answer
  | .edit (.addModule name) => .module (s.program.modules.add name).2
  | .edit (.addDependency _ _) => .done
  | .edit (.addExtern name source) => .added (s.program.addExtern name source).2
  | .edit (.addSource name source module) => .added (s.program.addSource name source module).2
  | .edit (.newExtern name) => .added (.ok (s.program.newExtern name).2)
  | .join _ => .done
  | .check i =>
    match s.checkers[i]? with
    | none => .done
    | some checker => .checked (checker.verdict s.program).error

def view (s : Session) : View where
  inputs := s.program.inputs.map Input.unrooted
  modules := s.program.modules
  bag := s.program.bag
  checkers := s.checkers.map fun checker =>
    (checker.sanity, checker.repairs.map (·.input), placeholderNames checker.repairs s.program)

/-- What is seen while some things happen: each answer, and the session after it. -/
def seen (s : Session) : List Action → List (Answer × View)
  | [] => []
  | action :: rest => (s.answer action, (s.act action).view) :: (s.act action).seen rest

end Session

/-- What stops a check. -/
def Outline.ending (o : Outline) (sanity : Bool) : Option VariableError :=
  if sanity then
    (o.all.find? o.isMissing).map fun m =>
      .unexpectedVariable m.name (o.file m.context.input) m.span
  else none

/-- A check, up to what it makes of the nodes, is determined by the outline. -/
theorem Checkable.run_outline (h : Checkable p plots repairs) (sanity : Bool) :
    let o := plotted p plots
    let mended := mend (p, repairs) (o.mends sanity)
    run sanity repairs p =
      ⟨{ mended.1 with bag := (noting p (o.found sanity)).bag }, mended.2, o.ending sanity⟩ := by
  cases sanity with
  | true => exact h.run_true_eq
  | false => exact h.run_false

/-- The input of the placeholders after some names were mended. -/
theorem mend_host (h : Ready p plots repairs) (hnames : ∀ x ∈ names, x ≠ "") :
    (mend (p, repairs) names).2.map (·.input) =
      (repairs.map (·.input)).or (if names = [] then none else some p.inputs.length) := by
  obtain ⟨after, hafter⟩ := mended h.holds h.hosted names hnames
  rcases mend_inputs h.holds h.hosted names with ⟨hsame, -⟩ | ⟨rfl, hnew, -⟩
  · cases repairs with
    | some host =>
      rw [hsame]
      rfl
    | none =>
      by_cases hnil : names = []
      · rw [hsame, if_pos hnil]
        rfl
      · have hsome := hafter.made hnil
        rw [hsame] at hsome
        cases hsome
  · cases names with
    | nil => cases hnew
    | cons name rest =>
      rw [hnew]
      rfl

/-- Mending makes an input for the placeholders if there is none so far. -/
theorem mend_unrooted (h : Ready p plots repairs) (hnames : ∀ x ∈ names, x ≠ "") :
    (mend (p, repairs) names).1.inputs.map Input.unrooted =
      p.inputs.map Input.unrooted ++
        if repairs.isSome ∨ names = [] then [] else [hostInput ⟨p.inputs.length, 0⟩] := by
  obtain ⟨after, hafter⟩ := mended h.holds h.hosted names hnames
  rcases mend_inputs h.holds h.hosted names with ⟨hsame, hinputs⟩ | ⟨rfl, hnew, hinputs⟩
  · have hcase : repairs.isSome ∨ names = [] := by
      by_cases hnil : names = []
      · exact .inr hnil
      · exact .inl (hsame ▸ hafter.made hnil)
    rw [hinputs, if_pos hcase, List.append_nil]
  · have hcase : ¬ ((none : Repairs).isSome ∨ names = []) := by
      rintro (hsome | rfl)
      · cases hsome
      · cases hnew
    rw [hinputs, if_neg hcase, List.map_append]
    rfl

theorem mend_agrees (h : p.Agrees q) (hp : Ready p plots repairs) (hq : Ready q others found)
    (hhost : repairs.map (·.input) = found.map (·.input)) (hnames : ∀ x ∈ names, x ≠ "") :
    (mend (p, repairs) names).1.Agrees (mend (q, found) names).1 ∧
      (mend (p, repairs) names).2.map (·.input) = (mend (q, found) names).2.map (·.input) := by
  obtain ⟨after, hafter⟩ := mended hp.holds hp.hosted names hnames
  obtain ⟨later, hlater⟩ := mended hq.holds hq.hosted names hnames
  refine ⟨⟨?_, ?_, ?_⟩, ?_⟩
  · have hsome : repairs.isSome = found.isSome := by
      simpa using congrArg Option.isSome hhost
    rw [mend_unrooted hp hnames, mend_unrooted hq hnames, h.inputs, h.length, hsome]
  · rw [hafter.kept.modules, hlater.kept.modules, h.modules]
  · rw [hafter.kept.bag, hlater.kept.bag, h.bag]
  · rw [mend_host hp hnames, mend_host hq hnames, hhost, h.length]

/-- What a check does in a session. -/
theorem Session.Held.act_check (h : s.Held plots) {i : Nat} {checker : Checker}
    (hchecker : s.checkers[i]? = some checker) :
    let o := plotted s.program plots
    let mended := mend (s.program, checker.repairs) (o.mends checker.sanity)
    s.act (.check i) = ⟨{ mended.1 with bag := (noting s.program (o.found checker.sanity)).bag },
        s.checkers.set i { checker with repairs := mended.2 }⟩ ∧
      s.answer (.check i) = .checked (o.ending checker.sanity) := by
  have hrun := (h.checks (List.mem_of_getElem? hchecker)).run_outline checker.sanity
  simp only [Session.act, Session.answer, hchecker, Checker.verdict, hrun]
  exact ⟨trivial, trivial⟩

/-- What is known of a checker apart from where its placeholders stand. -/
def Checker.unrooted (checker : Checker) : Bool × Option InputId :=
  (checker.sanity, checker.repairs.map (·.input))

/-- Sessions that differ in their nodes only, and have the same statements. -/
structure Alike (s t : Session) (plots others : List Plot) : Prop where
  held : s.Held plots
  other : t.Held others
  program : s.program.Agrees t.program
  bodies : bodyOf plots = bodyOf others
  checkers : s.checkers.map Checker.unrooted = t.checkers.map Checker.unrooted

/-- The placeholders of a checker are the statements of their script. -/
theorem names_of_hosted (h : Ready p plots repairs) {host : Placeholders} (hhost : host ∈ repairs) :
    bodyOf plots host.input = (host.names p).map Program.placeholder := by
  obtain ⟨plot, hplot, hhosts⟩ := h.hosted host hhost
  have hbody : bodyOf plots host.input = plot.body.map Planted.tree := by
    rw [← hhosts.input, bodyOf_input h.holds hplot]
  have hrange : plot.body.map Planted.tree ∈ Set.range (List.map Program.placeholder) := by
    rw [Set.range_list_map]
    intro tree htree
    obtain ⟨c, hc, rfl⟩ := List.mem_map.mp htree
    obtain ⟨x, -, hx⟩ := hhosts.body c hc
    exact ⟨x, hx.symm⟩
  obtain ⟨names, hnames⟩ := hrange
  rw [names_eq h.holds hhosts.blank rfl (hbody.trans hnames.symm), hbody, hnames]

theorem placeholder_injective : Function.Injective Program.placeholder := by
  intro x y h
  exact congrArg (fun tree => (tree.children.map Tree.text).headD "") h

namespace Alike

theorem placeholderNames (h : Alike s t plots others) {checker twin : Checker}
    (hmem : checker ∈ s.checkers) (hmem' : twin ∈ t.checkers)
    (hsame : checker.unrooted = twin.unrooted) :
    placeholderNames checker.repairs s.program = placeholderNames twin.repairs t.program := by
  have hinput : checker.repairs.map (·.input) = twin.repairs.map (·.input) :=
    congrArg Prod.snd hsame
  have hready := (h.held.checks hmem).toReady
  have hready' := (h.other.checks hmem').toReady
  cases hrepairs : checker.repairs with
  | none =>
    rw [hrepairs] at hinput
    rw [Option.map_eq_none_iff.mp hinput.symm]
    rfl
  | some host =>
    rw [hrepairs] at hinput
    obtain ⟨host', hhost', heq⟩ := Option.map_eq_some_iff.mp hinput.symm
    rw [hhost']
    have hnames := names_of_hosted hready hrepairs
    have hnames' := names_of_hosted hready' hhost'
    rw [heq, ← h.bodies, hnames] at hnames'
    exact placeholder_injective.list_map hnames'

/-- Alike sessions look the same. -/
theorem view_eq (h : Alike s t plots others) : s.view = t.view := by
  have hcheckers : s.view.checkers = t.view.checkers := by
    apply List.ext_getElem
    · simpa [Session.view] using congrArg List.length h.checkers
    · intro i hi hi'
      simp only [Session.view, List.length_map] at hi hi'
      have hsame : s.checkers[i].unrooted = t.checkers[i].unrooted := by
        have hget := congrArg (fun cs => cs[i]?) h.checkers
        simpa [hi, hi'] using hget
      simp only [Session.view, List.getElem_map]
      rw [h.placeholderNames (List.getElem_mem hi) (List.getElem_mem hi') hsame]
      exact congrArg (fun c : Bool × Option InputId => (c.1, c.2, _)) hsame
  exact View.ext h.program.inputs h.program.modules h.program.bag hcheckers

theorem edit (h : Alike s t plots others) (e : Edit) :
    ∃ after later, Alike (s.act (.edit e)) (t.act (.edit e)) after later := by
  obtain ⟨after, hafter⟩ := h.held.checkable.holds.extended_edit e
  obtain ⟨later, hlater⟩ := h.other.checkable.holds.extended_edit e
  have hprogram := h.program.edit e
  refine ⟨after, later, h.held.extended hafter, h.other.extended hlater, hprogram, ?_, h.checkers⟩
  funext i
  rw [hafter.bodies, hlater.bodies, h.program.length, h.bodies, hprogram.statements]

theorem answer_edit (h : Alike s t plots others) (e : Edit) :
    s.answer (.edit e) = t.answer (.edit e) := by
  cases e with
  | addModule name =>
    exact congrArg (fun g : ModuleGraph => Answer.module (g.add name).2) h.program.modules
  | addDependency source target => rfl
  | addExtern name source =>
    exact congrArg Answer.added (h.program.addParsed name source none true).2
  | addSource name source module =>
    exact congrArg Answer.added (h.program.addParsed name source module false).2
  | newExtern name => exact congrArg (Answer.added ∘ Except.ok) h.program.length

theorem join (h : Alike s t plots others) (sanity : Bool) :
    Alike (s.act (.join sanity)) (t.act (.join sanity)) plots others where
  held := h.held.join sanity
  other := h.other.join sanity
  program := h.program
  bodies := h.bodies
  checkers := by
    rw [Session.act, Session.act, List.map_append, List.map_append, h.checkers]

/-- A check in one of two alike sessions goes like the same check in the other one. -/
theorem check (h : Alike s t plots others) (i : Nat) :
    s.answer (.check i) = t.answer (.check i) ∧
      ∃ after later, Alike (s.act (.check i)) (t.act (.check i)) after later := by
  have hget : s.checkers[i]?.map Checker.unrooted = t.checkers[i]?.map Checker.unrooted := by
    rw [← List.getElem?_map, ← List.getElem?_map, h.checkers]
  cases hchecker : s.checkers[i]? with
  | none =>
    rw [hchecker] at hget
    have htwin := Option.map_eq_none_iff.mp hget.symm
    simp only [Session.answer, Session.act, hchecker, htwin]
    exact ⟨trivial, plots, others, h⟩
  | some checker =>
    rw [hchecker] at hget
    obtain ⟨⟨sanity, found⟩, htwin, hsame⟩ := Option.map_eq_some_iff.mp hget.symm
    obtain ⟨rfl, hhost⟩ := Prod.mk.inj hsame
    have hchecks := h.held.checks (List.mem_of_getElem? hchecker)
    have hchecks' := h.other.checks (List.mem_of_getElem? htwin)
    have houtline : plotted t.program others = plotted s.program plots := by
      rw [plotted, ← h.bodies, ← h.program.outline]
    let names := (plotted s.program plots).mends checker.sanity
    have hnames : ∀ x ∈ names, x ≠ "" := Outline.nonempty_of_mends
    obtain ⟨after, hafter⟩ := mended hchecks.holds hchecks.hosted names hnames
    obtain ⟨later, hlater⟩ := mended hchecks'.holds hchecks'.hosted names hnames
    obtain ⟨hprogram, hrepairs⟩ :=
      mend_agrees h.program hchecks.toReady hchecks'.toReady hhost.symm hnames
    obtain ⟨hact, hanswer⟩ := h.held.act_check hchecker
    obtain ⟨hact', hanswer'⟩ := h.other.act_check htwin
    have hsane := h.held.repairs_of_sane (List.mem_of_getElem? hchecker)
    have hsane' := h.other.repairs_of_sane (List.mem_of_getElem? htwin)
    rw [houtline] at hact' hanswer' hsane'
    refine ⟨hanswer.trans hanswer'.symm, after, later, ?_⟩
    rw [hact, hact']
    refine ⟨h.held.mended hchecker hnames hafter hsane _,
      h.other.mended htwin hnames hlater hsane' _, ⟨hprogram.inputs, hprogram.modules, ?_⟩, ?_, ?_⟩
    · simp only [noting, h.program.bag]
    · funext j
      rw [hafter.bodies, hlater.bodies, h.bodies, hrepairs]
    · rw [List.map_set, List.map_set, h.checkers]
      exact congrArg (fun host => List.set _ i (checker.sanity, host)) hrepairs

/-- What happens in one of two alike sessions is answered as in the other one, and leaves them
alike. -/
theorem act (h : Alike s t plots others) (action : Action) :
    s.answer action = t.answer action ∧
      ∃ after later, Alike (s.act action) (t.act action) after later := by
  cases action with
  | edit e => exact ⟨h.answer_edit e, h.edit e⟩
  | join sanity => exact ⟨rfl, plots, others, h.join sanity⟩
  | check i => exact h.check i

/-- Whatever happens, nobody can tell alike sessions apart. -/
theorem seen_eq (h : Alike s t plots others) (actions : List Action) :
    s.seen actions = t.seen actions := by
  induction actions generalizing s t plots others with
  | nil => rfl
  | cons action rest ih =>
    obtain ⟨hanswer, after, later, hnext⟩ := h.act action
    rw [Session.seen, Session.seen, hanswer, hnext.view_eq, ih hnext]

end Alike

/-- A source that cannot be parsed adds loose nodes and nothing else. -/
theorem Session.edit_of_failed {e : Edit} {error : SyntaxError}
    (h : s.answer (.edit e) = .added (.error error)) :
    ∃ trees, s.program.edit e = { s.program with store := s.program.store.strew trees } := by
  have hparsed : ∀ name source module isExtern,
      (s.program.addParsed name source module isExtern).2 = .error error →
        ∃ trees, (s.program.addParsed name source module isExtern).1 =
          { s.program with store := s.program.store.strew trees } := by
    intro name source module isExtern hfailed
    cases hparse : parse source with
    | error refusal =>
      rw [Program.addParsed_of_error hparse]
      exact ⟨refusal.loose, rfl⟩
    | ok tree =>
      rw [Program.addParsed_of_ok hparse] at hfailed
      cases hfailed
  cases e with
  | addModule name => cases h
  | addDependency source target => cases h
  | addExtern name source => exact hparsed name source none true (Answer.added.inj h)
  | addSource name source module => exact hparsed name source module false (Answer.added.inj h)
  | newExtern name => cases h

/-- Loose nodes leave a session as it was. -/
theorem Session.Held.alike_strew (h : s.Held plots) (trees : List Tree) :
    Alike { s with program := { s.program with store := s.program.store.strew trees } } s
      plots plots where
  held := h.extended (h.checkable.holds.extended_same (h.checkable.holds.append _) rfl rfl)
  other := h
  program := ⟨rfl, rfl, rfl⟩
  bodies := rfl
  checkers := rfl

/-- Adding a source that cannot be parsed is not seen, in whatever session: inputs, modules, reports
and checkers stay as they are, and so do all nodes that were there and what the two roots list;
no new node can be reached from a root; and whatever happens later is answered, and looks, as it
would without that source. -/
theorem failed_add_unseen (levels : Levels) (actions : List Action) (e : Edit)
    (error : SyntaxError)
    (hfailed : (Session.after levels actions).answer (.edit e) = .added (.error error)) :
    let s := Session.after levels actions
    let t := s.act (.edit e)
    (∃ store, t = { s with program := { s.program with store } }) ∧
    (∀ (id : Nat) node, s.program.store.get? (some id) = some node →
      t.program.store.get? (some id) = some node) ∧
    (∀ root ∈ Program.roots,
      t.program.store.children (some root) = s.program.store.children (some root) ∧
      ∀ path n, t.program.store.follow (some root) path = some n → n < s.program.store.size) ∧
    ∀ later, t.seen later = s.seen later := by
  obtain ⟨plots, hs⟩ := Session.formed levels actions
  obtain ⟨trees, htrees⟩ := Session.edit_of_failed hfailed
  have hact : (Session.after levels actions).act (.edit e) =
      { Session.after levels actions with
        program := { (Session.after levels actions).program with
          store := (Session.after levels actions).program.store.strew trees } } := by
    rw [Session.act, htrees]
  dsimp only
  rw [hact]
  refine ⟨⟨_, rfl⟩, ?_, ?_, (hs.toHeld.alike_strew trees).seen_eq⟩
  · intro id node hnode
    exact NodeStore.get?_strew trees hnode
  · intro root hroot
    have hnode := hs.checkable.holds.node root (Program.mem_roots.mp hroot)
    refine ⟨?_, fun path n hn => hs.linked.follow_strew (NodeStore.lt_of_get? hnode) hn⟩
    rw [NodeStore.children, NodeStore.children, hnode, NodeStore.get?_strew trees hnode]

/-- For instance a source that ends in a declaration without a name, added between two checks. -/
theorem failed_add_unseen_nameless :
    let s := Session.after Levels.none
      [.edit (.addSource "main.js" "used;" none), .join false, .check 0]
    let e := Edit.addSource "nameless.js" "f(used); var = 1;" none
    (∃ error, s.answer (.edit e) = .added (.error error)) ∧
      (s.act (.edit e)).seen [.check 0] = s.seen [.check 0] := by
  intro s e
  have hrefused : (parse "f(used); var = 1;").isOk = false := by decide +kernel
  obtain ⟨error, herror⟩ : ∃ error, s.answer (.edit e) = .added (.error error) := by
    cases hparse : parse "f(used); var = 1;" with
    | error refusal =>
      refine ⟨refusal.error, congrArg Answer.added ?_⟩
      rw [Program.addSource, Program.addParsed_of_error hparse]
    | ok tree =>
      rw [hparse] at hrefused
      cases hrefused
  exact ⟨⟨error, herror⟩, (failed_add_unseen _ _ e error herror).2.2.2 _⟩

end Check

end RefCheck
