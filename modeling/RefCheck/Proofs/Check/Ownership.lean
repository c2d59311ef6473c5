import RefCheck.Proofs.Check.Again

/-!
# Who made which placeholder

A checker makes one script for placeholders at most, and no two checkers share one. A name gets a
placeholder only if no script declares it, so no name has two of them, whoever made them and however
a session went on.
-/

namespace RefCheck.Check

open RefCheck.Text RefCheck.Script

/-- The scripts of inputs without a source text. -/
def madeUp (p : Program) : List Placeholders :=
  (List.range p.inputs.length).filterMap fun i =>
    (p.input? i).bind fun input => if input.source = none then some ⟨i, input.root⟩ else none

/-- The scripts that the checkers of a session made for placeholders. -/
def Session.owners (s : Session) : List Placeholders := s.checkers.filterMap (·.repairs)

/-- The names that have placeholders in the script of a checker, if there is one. -/
def placeholderNames (repairs : Repairs) (p : Program) : List String :=
  (repairs.map fun h => h.names p).getD []

/-- The names that are reported to be undefined, one for each report. -/
def missingNames (ds : List Diagnostic) : List String :=
  (ds.filter fun d => d.key = Rule.undefinedVariable.key).map fun d => d.args.headD ""

variable {p q : Program} {plots after : List Plot} {repairs : Repairs} {names : List String}
  {s : Session} {h : Placeholders}

theorem mem_madeUp : h ∈ madeUp p ↔
    ∃ input, p.input? h.input = some input ∧ input.source = none ∧ input.root = h.root := by
  rw [madeUp, List.mem_filterMap]
  constructor
  · rintro ⟨i, -, hi⟩
    obtain ⟨input, hinput, hsource⟩ := Option.bind_eq_some_iff.mp hi
    split at hsource
    · next hnone =>
      cases hsource
      exact ⟨input, hinput, hnone, rfl⟩
    · cases hsource
  · rintro ⟨input, hinput, hsource, hroot⟩
    have hlt := (List.getElem?_eq_some_iff.mp hinput).1
    refine ⟨h.input, List.mem_range.mpr hlt, ?_⟩
    rw [hinput, Option.bind_some, if_pos hsource, hroot]

theorem nodup_madeUp : ((madeUp p).map (·.input)).Nodup := by
  have hsub : ((madeUp p).map (·.input)).Sublist (List.range p.inputs.length) := by
    rw [madeUp]
    induction List.range p.inputs.length with
    | nil => exact List.Sublist.refl _
    | cons i rest ih =>
      rw [List.filterMap_cons]
      split
      · exact ih.cons i
      · next h hmade =>
        obtain ⟨input, -, hsource⟩ := Option.bind_eq_some_iff.mp hmade
        split at hsource
        · cases hsource
          exact ih.cons_cons i
        · cases hsource
  exact hsub.nodup List.nodup_range

theorem names_placeholder {store : NodeStore} {parent : Option NodeId} {c : Planted} {x : String}
    (hc : store.Shows parent c) (htree : c.tree = Program.placeholder x) :
    (store.children (some c.root)).map store.text = [x] := by
  have hchild : c.children = [⟨c.base, .node .name x Span.none []⟩] := by
    obtain ⟨base, t⟩ := c
    cases htree
    rfl
  have hname := hc.child (c := ⟨c.base, .node .name x Span.none []⟩) (by simp [hchild])
  rw [hc.children_eq, hchild]
  exact congrArg (fun text => [text]) hname.text_eq

theorem names_placeholders {store : NodeStore} {parent : Option NodeId} {body : List Planted}
    (hbody : ∀ c ∈ body, store.Shows parent c)
    (htrees : body.map Planted.tree = names.map Program.placeholder) :
    (body.flatMap fun c => (store.children (some c.root)).map store.text) = names := by
  induction names generalizing body with
  | nil =>
    rw [List.map_eq_nil_iff.mp htrees]
    rfl
  | cons x rest ih =>
    cases body with
    | nil => cases htrees
    | cons c more =>
      obtain ⟨hc, hmore⟩ := List.forall_mem_cons.mp hbody
      obtain ⟨htree, htrees⟩ := List.cons.inj htrees
      rw [List.flatMap_cons, names_placeholder hc htree, ih hmore htrees]
      rfl

/-- The names in a script that has nothing but placeholders. -/
theorem names_eq (hp : p.Holds plots) {input : Input} (hinput : p.input? h.input = some input)
    (hroot : input.root = h.root)
    (hbody : bodyOf plots h.input = names.map Program.placeholder) : h.names p = names := by
  have hlt : h.input < plots.length := hp.length ▸ (List.getElem?_eq_some_iff.mp hinput).1
  have hplot := List.getElem?_eq_getElem hlt
  obtain ⟨-, -, hplotRoot⟩ := hp.input h.input _ input hplot hinput
  have hshown := hp.shown _ (List.getElem_mem hlt)
  have hchildren := hshown.children_eq
  rw [hplotRoot, hroot] at hchildren
  rw [bodyOf, hplot] at hbody
  rw [Placeholders.names, hchildren, List.flatMap_map, List.map_flatMap]
  exact names_placeholders hshown.body hbody

section Reports

variable {o : Outline} {ms : List Mention} {m : Mention}

theorem missingNames_append (ds more : List Diagnostic) :
    missingNames (ds ++ more) = missingNames ds ++ missingNames more := by
  simp [missingNames]

theorem missingNames_of_keys {ds : List Diagnostic}
    (hkeys : ∀ d ∈ ds, d.key ≠ Rule.undefinedVariable.key) : missingNames ds = [] := by
  have hnone : ds.filter (fun d => d.key = Rule.undefinedVariable.key) = [] :=
    List.filter_eq_nil_iff.mpr fun d hd => by simpa using hkeys d hd
  rw [missingNames, hnone, List.map_nil]

theorem missingNames_noEffect : missingNames (o.noEffect ms) = [] := by
  apply missingNames_of_keys
  intro d hd
  rw [Outline.key_of_mem_noEffect hd]
  decide

theorem missingNames_remarks {sanity : Bool} : missingNames (Outline.remarks sanity o m) = [] :=
  missingNames_of_keys fun _ => Outline.key_of_mem_remarks

theorem missingNames_report :
    missingNames [o.report Rule.undefinedVariable m [m.name]] = [m.name] := by
  simp [missingNames, Outline.report, Rule.diagnostic]

/-- What is reported missing is what is missing for the first time. -/
theorem missingNames_findings (known : List String) :
    missingNames (o.findings known ms) = o.lacking known ms := by
  induction ms generalizing known with
  | nil => rfl
  | cons m rest ih =>
    rw [Outline.findings, Outline.lacking]
    by_cases hmissing : o.isMissing m
    · by_cases hknown : m.name ∈ known
      · rw [if_pos hmissing, if_pos hknown, if_neg (by simp [hknown]), ih]
      · rw [if_pos hmissing, if_neg hknown, if_pos ⟨hmissing, hknown⟩, ← List.singleton_append,
          missingNames_append, missingNames_report, ih]
        rfl
    · rw [if_neg hmissing, if_neg (by simp [hmissing]), missingNames_append, missingNames_remarks,
        ih, List.nil_append]

/-- A sanity check reports one missing name at most. -/
theorem missingNames_strictFindings :
    missingNames (o.strictFindings ms) = ((ms.find? o.isMissing).map (·.name)).toList := by
  induction ms with
  | nil => rfl
  | cons m rest ih =>
    rw [Outline.strictFindings]
    by_cases hmissing : o.isMissing m
    · rw [if_pos hmissing, missingNames_report, List.find?_cons_of_pos hmissing]
      rfl
    · rw [if_neg hmissing, missingNames_append, missingNames_remarks, ih,
        List.find?_cons_of_neg hmissing, List.nil_append]

theorem nodup_lacking (known : List String) : (o.lacking known ms).Nodup := by
  induction ms generalizing known with
  | nil => exact List.nodup_nil
  | cons m rest ih =>
    rw [Outline.lacking]
    split
    · refine List.nodup_cons.mpr ⟨?_, ih _⟩
      intro hmem
      exact (Outline.mem_lacking.mp hmem).1 (List.mem_append_right _ List.mem_cons_self)
    · exact ih known

theorem nodup_mends (sanity : Bool) : (o.mends sanity).Nodup := by
  rw [Outline.mends]
  split
  · exact List.nodup_nil
  · exact nodup_lacking []

/-- A check that repairs mends what it reports missing. -/
theorem missingNames_found : missingNames (o.found false) = o.mends false := by
  rw [Outline.found, missingNames_append, missingNames_noEffect]
  exact missingNames_findings []

/-- Every check reports a missing name once. -/
theorem nodup_missingNames_found (sanity : Bool) : (missingNames (o.found sanity)).Nodup := by
  cases sanity with
  | true =>
    have hfirst : missingNames (o.found true) = missingNames (o.strictFindings o.all) := by
      rw [Outline.found, missingNames_append, missingNames_noEffect]
      rfl
    rw [hfirst, missingNames_strictFindings]
    cases o.all.find? o.isMissing with
    | none => exact List.nodup_nil
    | some m => exact List.nodup_singleton _
  | false =>
    rw [missingNames_found]
    exact nodup_mends false

end Reports

/-- What is known of the placeholders in a session: each script consists of what was parsed and of
placeholders for the names that were made in it, only owned scripts have any, and no name was made
twice. -/
structure Session.Accounts (s : Session) (plots : List Plot) (made : InputId → List String) : Prop
    extends s.Held plots where
  bodies : ∀ i, bodyOf plots i = s.program.statements i ++ (made i).map Program.placeholder
  owned : ∀ i, made i ≠ [] → ∃ h ∈ s.owners, h.input = i
  distinct : ∀ i, (made i).Nodup
  apart : ∀ i j x, x ∈ made i → x ∈ made j → i = j
  owners : (s.owners.map (·.input)).Nodup

theorem owners_same {i : Nat} {checker : Checker} (hchecker : s.checkers[i]? = some checker) :
    (s.checkers.set i checker).filterMap (·.repairs) = s.owners := by
  obtain ⟨hlt, rfl⟩ := List.getElem?_eq_some_iff.mp hchecker
  rw [List.set_getElem_self hlt]
  rfl

/-- A checker that had no placeholders joins the owners. -/
theorem owners_joined {i : Nat} {checker : Checker} (hchecker : s.checkers[i]? = some checker)
    (hnone : checker.repairs = none) (h : Placeholders) :
    ((s.checkers.set i { checker with repairs := some h }).filterMap (·.repairs)).Perm
      (h :: s.owners) := by
  obtain ⟨hlt, rfl⟩ := List.getElem?_eq_some_iff.mp hchecker
  have hold : s.checkers = s.checkers.take i ++ s.checkers[i] :: s.checkers.drop (i + 1) := by
    rw [List.cons_getElem_drop_succ, List.take_append_drop]
  have howners : s.owners = (s.checkers.take i).filterMap (·.repairs) ++
      (s.checkers.drop (i + 1)).filterMap (·.repairs) := by
    rw [Session.owners]
    conv_lhs => rw [hold]
    rw [List.filterMap_append, List.filterMap_cons_none hnone]
  rw [List.set_eq_take_append_cons_drop, if_pos hlt, List.filterMap_append, howners]
  exact List.perm_middle

/-- New inputs without a source text have no statements. -/
theorem statements_append {new : List Input} (hinputs : q.inputs = p.inputs ++ new)
    (hnew : ∀ input ∈ new, input.source = none) (i : InputId) :
    q.statements i = p.statements i := by
  rw [Program.statements, Program.statements, Program.input?, Program.input?, hinputs]
  by_cases hlt : i < p.inputs.length
  · rw [List.getElem?_append_left hlt]
  · rw [List.getElem?_append_right (Nat.le_of_not_lt hlt),
      List.getElem?_eq_none (Nat.le_of_not_lt hlt)]
    cases hi : new[i - p.inputs.length]? with
    | none => rfl
    | some input =>
      have hsource := hnew input (List.mem_of_getElem? hi)
      rw [Option.map_some, Input.statements, hsource]
      rfl

theorem statements_of_blank {i : InputId} {input : Input} (hinput : p.input? i = some input)
    (hsource : input.source = none) : p.statements i = [] := by
  rw [Program.statements, hinput, Option.map_some, Input.statements, hsource]
  rfl

/-- Mending leaves the statements of all inputs as they are. -/
theorem statements_mend (hready : Ready p plots repairs) (names : List String) (i : InputId) :
    (mend (p, repairs) names).1.statements i = p.statements i := by
  rcases mend_inputs hready.holds hready.hosted names with ⟨-, hinputs⟩ | ⟨-, -, hinputs⟩
  · exact statements_append (hinputs.trans (List.append_nil _).symm) nofun i
  · exact statements_append hinputs (by simp) i

theorem Session.Held.blank (hs : s.Held plots) (hmem : h ∈ s.owners) :
    s.program.input? h.input = some (hostInput h) := by
  obtain ⟨checker, hchecker, hrepairs⟩ := List.mem_filterMap.mp hmem
  obtain ⟨plot, -, hhosts⟩ := hs.hosted checker hchecker h hrepairs
  exact hhosts.blank

theorem Session.Held.mem_externs (hs : s.Held plots) (hmem : h ∈ s.owners) :
    h.input ∈ (plotted s.program plots).externs := by
  have hblank := hs.blank hmem
  refine List.mem_filter.mpr ⟨List.mem_range.mpr (List.getElem?_eq_some_iff.mp hblank).1, ?_⟩
  rw [hblank]
  rfl

namespace Session.Accounts

variable {made : InputId → List String}

theorem start (levels : Levels) : (Session.start levels).Accounts [] fun _ => [] where
  toHeld := .start levels
  bodies i := by
    rw [bodyOf, Program.statements]
    rfl
  owned i hne := absurd rfl hne
  distinct i := List.nodup_nil
  apart i j x hx := absurd hx List.not_mem_nil
  owners := List.nodup_nil

/-- What is made in scripts that are not there yet is nothing. -/
theorem made_of_le (ha : s.Accounts plots made) {i : InputId}
    (hi : s.program.inputs.length ≤ i) : made i = [] := by
  by_contra hne
  obtain ⟨h, hmem, rfl⟩ := ha.owned i hne
  have hlt := (List.getElem?_eq_some_iff.mp (ha.toHeld.blank hmem)).1
  omega

/-- An input with a source has the statements of its source. -/
theorem body_of_source (ha : s.Accounts plots made) {i : InputId} {input : Input}
    (hinput : s.program.input? i = some input) (hsource : input.source ≠ none) :
    bodyOf plots i = input.statements := by
  have hmade : made i = [] := by
    by_contra hne
    obtain ⟨h, hmem, rfl⟩ := ha.owned i hne
    rw [ha.toHeld.blank hmem] at hinput
    cases hinput
    exact hsource rfl
  rw [ha.bodies, hmade, Program.statements, hinput]
  exact List.append_nil _

/-- A name with a placeholder is declared. -/
theorem declared (ha : s.Accounts plots made) {i : InputId} {x : String} (hx : x ∈ made i) :
    (plotted s.program plots).declarer? x ≠ none := by
  obtain ⟨h, hmem, rfl⟩ := ha.owned i (List.ne_nil_of_mem hx)
  have hbody : x ∈ Tree.forestDeclaredNames .script ((plotted s.program plots).body h.input) := by
    change x ∈ Tree.forestDeclaredNames .script (bodyOf plots h.input)
    rw [ha.bodies, Repaired.forestDeclaredNames_append, Repaired.forestDeclaredNames_placeholders]
    exact List.mem_append_right _ hx
  intro hnone
  have hall := List.find?_eq_none.mp hnone h.input
    (List.mem_append_left _ (ha.toHeld.mem_externs hmem))
  exact hall (decide_eq_true hbody)

theorem fresh_of_mends (ha : s.Accounts plots made) {sanity : Bool} {x : String}
    (hx : x ∈ (plotted s.program plots).mends sanity) (i : InputId) : x ∉ made i := by
  intro hmade
  rw [Outline.mends] at hx
  split at hx
  · cases hx
  · obtain ⟨-, m, -, hmissing, rfl⟩ := Outline.mem_lacking.mp hx
    exact ha.declared hmade (Outline.isMissing_iff.mp hmissing).2.2.2

theorem extended (ha : s.Accounts plots made)
    (hafter : Program.Extended s.program plots q after) :
    Session.Accounts { s with program := q } after made where
  toHeld := ha.toHeld.extended hafter
  bodies i := by
    rw [hafter.bodies]
    split
    · next hlt => rw [ha.bodies, hafter.statements hlt]
    · next hge =>
      rw [ha.made_of_le (Nat.le_of_not_lt hge), List.map_nil, List.append_nil]
  owned := ha.owned
  distinct := ha.distinct
  apart := ha.apart
  owners := ha.owners

theorem join (ha : s.Accounts plots made) (sanity : Bool) :
    (s.act (.join sanity)).Accounts plots made := by
  have hsame : (s.act (.join sanity)).owners = s.owners := by
    rw [Session.owners, Session.act, List.filterMap_append]
    exact List.append_nil _
  refine ⟨ha.toHeld.join sanity, ha.bodies, ?_, ha.distinct, ha.apart, ?_⟩
  · rw [hsame]
    exact ha.owned
  · rw [hsame]
    exact ha.owners

/-- The names in a script without a source text are those that were made in it. -/
theorem names_madeUp (ha : s.Accounts plots made) (hmem : h ∈ madeUp s.program) :
    h.names s.program = made h.input := by
  obtain ⟨input, hinput, hsource, hroot⟩ := mem_madeUp.mp hmem
  refine names_eq ha.checkable.holds hinput hroot ?_
  rw [ha.bodies, statements_of_blank hinput hsource, List.nil_append]

theorem owners_subset (ha : s.Accounts plots made) : ∀ h ∈ s.owners, h ∈ madeUp s.program :=
  fun _ hmem => mem_madeUp.mpr ⟨_, ha.toHeld.blank hmem, rfl, rfl⟩

theorem nodup_names (ha : s.Accounts plots made) :
    ((madeUp s.program).flatMap fun h => h.names s.program).Nodup := by
  have hmade : (madeUp s.program).flatMap (fun h => h.names s.program) =
      ((madeUp s.program).map (·.input)).flatMap made := by
    rw [List.flatMap_map]
    exact List.flatMap_congr fun h hmem => ha.names_madeUp hmem
  rw [hmade]
  refine List.nodup_flatMap.mpr ⟨fun i _ => ha.distinct i, ?_⟩
  refine nodup_madeUp.imp ?_
  intro i j hne x hi hj
  exact hne (ha.apart i j x hi hj)

section Mended

variable {i : Nat} {checker : Checker} (hchecker : s.checkers[i]? = some checker)
  (hafter : Mended s.program plots ((plotted s.program plots).mends checker.sanity)
    (mend (s.program, checker.repairs) ((plotted s.program plots).mends checker.sanity)) after)
  (bag : Bag)

include hchecker

/-- What becomes of the owners when a checker mends: one of them may be new. -/
theorem owners_mended (ha : s.Accounts plots made) (names : List String) :
    let r := mend (s.program, checker.repairs) names
    let owners := (s.checkers.set i { checker with repairs := r.2 }).filterMap (·.repairs)
    (∀ h ∈ s.owners, h ∈ owners) ∧ (∀ h ∈ r.2, h ∈ owners) ∧ (owners.map (·.input)).Nodup := by
  intro r owners
  have hmem := List.mem_of_getElem? hchecker
  rcases mend_inputs (ha.checks hmem).holds (ha.hosted checker hmem) names with
    ⟨hsame, -⟩ | ⟨hnone, hnew, -⟩
  · have howners : owners = s.owners := by
      change (s.checkers.set i { checker with repairs := r.2 }).filterMap (·.repairs) = s.owners
      rw [show r.2 = checker.repairs from hsame]
      exact owners_same hchecker
    rw [howners]
    refine ⟨fun _ => id, fun h hh => ?_, ha.owners⟩
    exact List.mem_filterMap.mpr ⟨checker, hmem, hsame ▸ hh⟩
  · have howners : owners.Perm (⟨s.program.inputs.length, s.program.store.size⟩ :: s.owners) := by
      change ((s.checkers.set i { checker with repairs := r.2 }).filterMap (·.repairs)).Perm _
      rw [show r.2 = _ from hnew]
      exact owners_joined hchecker hnone _
    refine ⟨fun h hh => ?_, fun h hh => ?_, ?_⟩
    · exact howners.mem_iff.mpr (List.mem_cons_of_mem _ hh)
    · rw [show r.2 = _ from hnew] at hh
      cases hh
      exact howners.mem_iff.mpr List.mem_cons_self
    · refine ((howners.map (·.input)).nodup_iff).mpr (List.nodup_cons.mpr ⟨?_, ha.owners⟩)
      intro hinput
      obtain ⟨h, hh, heq⟩ := List.mem_map.mp hinput
      have hlt := (List.getElem?_eq_some_iff.mp (ha.toHeld.blank hh)).1
      exact Nat.ne_of_lt hlt heq

include hafter

/-- The names that a checker mends are new, and are made in its script. -/
theorem mended (ha : s.Accounts plots made) :
    let names := (plotted s.program plots).mends checker.sanity
    let r := mend (s.program, checker.repairs) names
    Session.Accounts ⟨{ r.1 with bag }, s.checkers.set i { checker with repairs := r.2 }⟩ after
      fun j => made j ++ if r.2.map (·.input) = some j then names else [] := by
  intro names r
  have hmem := List.mem_of_getElem? hchecker
  obtain ⟨hkept, hown, hnodup⟩ := ha.owners_mended hchecker names
  have hnew : ∀ {j : InputId} {x : String},
      x ∈ (if r.2.map (·.input) = some j then names else []) →
      r.2.map (·.input) = some j ∧ x ∈ names := by
    intro j x hx
    split at hx
    · next hj => exact ⟨hj, hx⟩
    · cases hx
  have hfresh : ∀ x ∈ names, ∀ j, x ∉ made j := fun x hx => ha.fresh_of_mends hx
  refine ⟨ha.toHeld.mended hchecker Outline.nonempty_of_mends hafter
    (ha.toHeld.repairs_of_sane hmem) bag, ?_, ?_, ?_, ?_, hnodup⟩
  · intro j
    have hstatements : r.1.statements j = s.program.statements j :=
      statements_mend (ha.checks hmem).toReady names j
    rw [hafter.bodies, ha.bodies]
    change _ = r.1.statements j ++ _
    rw [hstatements, List.map_append, List.append_assoc]
    congr 2
    split <;> rfl
  · intro j hne
    by_cases hold : made j = []
    · rw [hold, List.nil_append] at hne
      obtain ⟨x, hx⟩ := List.exists_mem_of_ne_nil _ hne
      obtain ⟨host, hhost, hj⟩ := Option.map_eq_some_iff.mp (hnew hx).1
      exact ⟨host, hown host hhost, hj⟩
    · obtain ⟨h, hh, hj⟩ := ha.owned j hold
      exact ⟨h, hkept h hh, hj⟩
  · intro j
    refine List.nodup_append.mpr ⟨ha.distinct j, ?_, ?_⟩
    · split
      · exact nodup_mends _
      · exact List.nodup_nil
    · rintro x hx y hy rfl
      exact hfresh x (hnew hy).2 j hx
  · intro j k x hj hk
    rcases List.mem_append.mp hj with hj | hj
    · rcases List.mem_append.mp hk with hk | hk
      · exact ha.apart j k x hj hk
      · exact absurd hj (hfresh x (hnew hk).2 j)
    · rcases List.mem_append.mp hk with hk | hk
      · exact absurd hk (hfresh x (hnew hj).2 k)
      · exact Option.some.inj ((hnew hj).1.symm.trans (hnew hk).1)

/-- A check adds to the placeholders of its checker what it mends. -/
theorem placeholderNames_mended (ha : s.Accounts plots made) :
    let names := (plotted s.program plots).mends checker.sanity
    let r := mend (s.program, checker.repairs) names
    placeholderNames r.2 { r.1 with bag } =
      placeholderNames checker.repairs s.program ++ names := by
  intro names r
  have hmem := List.mem_of_getElem? hchecker
  have hinputs := mend_inputs (ha.checks hmem).holds (ha.hosted checker hmem) names
  have hlater := ha.mended hchecker hafter bag
  cases hrepairs : r.2 with
  | none =>
    have hnames : names = [] := by
      by_contra hne
      have hsome := hafter.made hne
      rw [show (mend _ _).2 = none from hrepairs] at hsome
      cases hsome
    have hnone : checker.repairs = none := by
      rcases hinputs with ⟨hsame, -⟩ | ⟨-, hnew, -⟩
      · exact hsame.symm.trans hrepairs
      · exact absurd (hnew.symm.trans hrepairs) (Option.some_ne_none _)
    rw [hnames, hnone]
    rfl
  | some h =>
    have howner := (ha.owners_mended hchecker names).2.1 h hrepairs
    have hnames := hlater.names_madeUp (hlater.owners_subset h howner)
    have hhost : (mend (s.program, checker.repairs) names).2.map (·.input) = some h.input :=
      congrArg (Option.map (·.input)) hrepairs
    rw [if_pos hhost] at hnames
    refine Eq.trans hnames (congrArg (· ++ names) ?_)
    rcases hinputs with ⟨hsame, -⟩ | ⟨hnone, hnew, -⟩
    · have hhad : checker.repairs = some h := hsame.symm.trans hrepairs
      have hold : h ∈ s.owners := List.mem_filterMap.mpr ⟨checker, hmem, hhad⟩
      rw [hhad]
      exact (ha.names_madeUp (ha.owners_subset h hold)).symm
    · obtain rfl := Option.some.inj (hnew.symm.trans hrepairs)
      rw [hnone]
      exact ha.made_of_le (Nat.le_refl _)

end Mended

theorem act (ha : s.Accounts plots made) (action : Action) :
    ∃ after made, (s.act action).Accounts after made := by
  cases action with
  | edit e =>
    obtain ⟨after, hafter⟩ := ha.checkable.holds.extended_edit e
    exact ⟨after, made, ha.extended hafter⟩
  | join sanity => exact ⟨plots, made, ha.join sanity⟩
  | check i =>
    rw [Session.act]
    cases hchecker : s.checkers[i]? with
    | none => exact ⟨plots, made, ha⟩
    | some checker =>
      have hchecks := ha.checks (List.mem_of_getElem? hchecker)
      obtain ⟨bag, hprogram, hrepairs⟩ := hchecks.run_mends checker.sanity
      obtain ⟨after, hafter, -⟩ := hchecks.mended Outline.nonempty_of_mends
      dsimp only [Checker.verdict]
      rw [hprogram, hrepairs]
      exact ⟨after, _, ha.mended hchecker hafter bag⟩

theorem acts (ha : s.Accounts plots made) (actions : List Action) :
    ∃ after made, (actions.foldl Session.act s).Accounts after made := by
  induction actions generalizing s plots made with
  | nil => exact ⟨plots, made, ha⟩
  | cons action rest ih =>
    obtain ⟨mid, between, hmid⟩ := ha.act action
    exact ih hmid

end Session.Accounts

/-- Every script without a source text belongs to a checker. -/
def Session.Covered (s : Session) : Prop := ∀ h ∈ madeUp s.program, h ∈ s.owners

theorem mem_madeUp_append {new : List Input} (hinputs : q.inputs = p.inputs ++ new)
    (hmem : h ∈ madeUp q) : h ∈ madeUp p ∨ ∃ k input, h = ⟨p.inputs.length + k, input.root⟩ ∧
      new[k]? = some input ∧ input.source = none := by
  obtain ⟨input, hinput, hsource, hroot⟩ := mem_madeUp.mp hmem
  rw [Program.input?, hinputs, List.getElem?_append] at hinput
  split at hinput
  · exact .inl (mem_madeUp.mpr ⟨input, hinput, hsource, hroot⟩)
  · next hge =>
    have hk : h = ⟨p.inputs.length + (h.input - p.inputs.length), input.root⟩ := by
      rw [Nat.add_sub_cancel' (Nat.le_of_not_lt hge), hroot]
    exact .inr ⟨_, input, hk, hinput, hsource⟩

/-- Mending makes no script but that of the placeholders. -/
theorem madeUp_mend (hready : Ready p plots repairs)
    (hmem : h ∈ madeUp (mend (p, repairs) names).1) :
    h ∈ madeUp p ∨ (mend (p, repairs) names).2 = some h := by
  rcases mend_inputs hready.holds hready.hosted names with ⟨-, hinputs⟩ | ⟨-, hnew, hinputs⟩
  · rcases mem_madeUp_append (hinputs.trans (List.append_nil _).symm) hmem with
      hmem | ⟨k, input, -, hinput, -⟩
    · exact .inl hmem
    · cases hinput
  · rcases mem_madeUp_append hinputs hmem with hmem | ⟨k, input, rfl, hinput, -⟩
    · exact .inl hmem
    · cases k with
      | zero =>
        cases hinput
        exact .inr hnew
      | succ k => cases hinput

/-- Nothing but a new extern comes without a source text. -/
theorem source_of_edit (p : Program) {e : Edit} (he : ∀ name, e ≠ .newExtern name) :
    ∃ new, (p.edit e).inputs = p.inputs ++ new ∧ ∀ input ∈ new, input.source ≠ none := by
  have hsame : ∃ new, p.inputs = p.inputs ++ new ∧ ∀ input ∈ new, input.source ≠ none :=
    ⟨[], (List.append_nil _).symm, List.forall_mem_nil _⟩
  have hparsed : ∀ name source module isExtern, ∃ new,
      (p.addParsed name source module isExtern).1.inputs = p.inputs ++ new ∧
        ∀ input ∈ new, input.source ≠ none := by
    intro name source module isExtern
    cases hparse : parse source with
    | error refusal =>
      rw [Program.addParsed_of_error hparse]
      exact hsame
    | ok tree =>
      rw [Program.addParsed_of_ok hparse]
      exact ⟨_, rfl, by simp⟩
  cases e with
  | addModule name => exact hsame
  | addDependency source target => exact hsame
  | addExtern name source => exact hparsed name source none true
  | addSource name source module => exact hparsed name source module false
  | newExtern name => exact absurd rfl (he name)

namespace Session.Accounts

variable {made : InputId → List String}

theorem covered_act (ha : s.Accounts plots made) (hcovered : s.Covered) {action : Action}
    (haction : ∀ name, action ≠ .edit (.newExtern name)) : (s.act action).Covered := by
  cases action with
  | edit e =>
    intro h hmem
    obtain ⟨new, hinputs, hnew⟩ := source_of_edit s.program
      (e := e) fun name he => haction name (congrArg Action.edit he)
    rcases mem_madeUp_append hinputs hmem with hmem | ⟨k, input, -, hinput, hsource⟩
    · exact hcovered h hmem
    · exact absurd hsource (hnew input (List.mem_of_getElem? hinput))
  | join sanity =>
    intro h hmem
    rw [Session.owners, Session.act, List.filterMap_append]
    exact List.mem_append_left _ (hcovered h hmem)
  | check i =>
    rw [Session.act]
    cases hchecker : s.checkers[i]? with
    | none => exact hcovered
    | some checker =>
      have hchecks := ha.checks (List.mem_of_getElem? hchecker)
      obtain ⟨bag, hprogram, hrepairs⟩ := hchecks.run_mends checker.sanity
      obtain ⟨hkept, hown, -⟩ :=
        ha.owners_mended hchecker ((plotted s.program plots).mends checker.sanity)
      dsimp only [Checker.verdict]
      rw [hprogram, hrepairs]
      intro h hmem
      rcases madeUp_mend hchecks.toReady hmem with hmem | hmade
      · exact hkept h (hcovered h hmem)
      · exact hown h hmade

theorem covered_acts (ha : s.Accounts plots made) (hcovered : s.Covered) {actions : List Action}
    (hactions : ∀ name, .edit (.newExtern name) ∉ actions) :
    (actions.foldl Session.act s).Covered := by
  induction actions generalizing s plots made with
  | nil => exact hcovered
  | cons action rest ih =>
    obtain ⟨mid, between, hmid⟩ := ha.act action
    refine ih hmid (ha.covered_act hcovered ?_) fun name hmem => hactions name (.tail _ hmem)
    rintro name rfl
    exact hactions name List.mem_cons_self

end Session.Accounts

theorem Session.accounts (levels : Levels) (actions : List Action) :
    ∃ plots made, (Session.after levels actions).Accounts plots made :=
  (Accounts.start levels).acts actions

/-- However a session goes on: sanity checkers own no placeholders and no two checkers share a
script; all scripts without a source text are owned unless someone else made them; no name has two
placeholders; every check reports a missing name once, and a check that repairs adds placeholders
for just these names, in this order. -/
theorem placeholders_unique (levels : Levels) (actions : List Action) :
    let s := Session.after levels actions
    let p := s.program
    (∀ checker ∈ s.checkers, checker.sanity = true → checker.repairs = none) ∧
    (s.owners.map (·.input)).Nodup ∧ (∀ h ∈ s.owners, h ∈ madeUp p) ∧
    ((∀ name, .edit (.newExtern name) ∉ actions) → ∀ h ∈ madeUp p, h ∈ s.owners) ∧
    ((madeUp p).flatMap fun h => h.names p).Nodup ∧
    ∀ checker ∈ s.checkers, let verdict := checker.verdict p
      ∃ found, verdict.program.bag.reports = p.bag.reports ++ found ∧ (missingNames found).Nodup ∧
        (checker.sanity = false →
          placeholderNames verdict.repairs verdict.program =
            placeholderNames checker.repairs p ++ missingNames found) := by
  obtain ⟨plots, made, ha⟩ := Session.accounts levels actions
  refine ⟨ha.sane, ha.owners, ha.owners_subset, ?_, ha.nodup_names, ?_⟩
  · exact (Session.Accounts.start levels).covered_acts (fun h hh => by cases hh)
  · intro checker hmem
    obtain ⟨i, hchecker⟩ := List.mem_iff_getElem?.mp hmem
    have hchecks := ha.checks hmem
    refine ⟨_, hchecks.run_found checker.sanity, nodup_missingNames_found _, fun hnormal => ?_⟩
    obtain ⟨bag, hprogram, hrepairs⟩ := hchecks.run_mends checker.sanity
    obtain ⟨after, hafter, -⟩ := hchecks.mended Outline.nonempty_of_mends
    have hfound : ∀ o : Outline,
        missingNames (o.found checker.sanity) = o.mends checker.sanity := by
      intro o
      rw [hnormal]
      exact missingNames_found
    rw [hfound, Checker.verdict, hprogram, hrepairs]
    exact ha.placeholderNames_mended hchecker hafter bag

end RefCheck.Check
