import RefCheck.Project.Build
import RefCheck.Proofs.ModuleGraph.Cycles
import RefCheck.Proofs.ModuleGraph.Dependencies

/-!
# The program of a project

An accepted project names its modules apart and depends on modules of its own only. Its module graph
has a module for each entry, in the same order, and an edge for each dependency. Its program has an
input for each file, in the order of the project. So a project is built unless its modules go round
or a file cannot be read or parsed (`build_configured`).
-/

namespace RefCheck.Project

open RefCheck.Script RefCheck.ModuleGraph

/-- Modules with names of their own that depend on each other only. -/
structure Accepted (modules : List ModuleEntry) : Prop where
  named : ∀ m ∈ modules, m.name ≠ ""
  distinct : (modules.map (·.name)).Nodup
  known : ∀ m ∈ modules, ∀ dep ∈ m.deps, dep ∈ modules.map (·.name)

variable {modules : List ModuleEntry}

theorem checkNames_eq_ok_iff {before : List String} :
    checkNames before modules = .ok () ↔
      (∀ m ∈ modules, m.name ≠ "") ∧ (modules.map (·.name)).Nodup ∧
        ∀ m ∈ modules, m.name ∉ before := by
  induction modules generalizing before with
  | nil => simp [checkNames]
  | cons m rest ih =>
    rw [checkNames]
    by_cases hempty : m.name = ""
    · simp [hempty]
    by_cases hbefore : m.name ∈ before
    · simp [hempty, hbefore]
    rw [if_neg hempty, if_neg hbefore, ih, List.forall_mem_cons, List.forall_mem_cons,
      List.map_cons, List.nodup_cons]
    simp only [List.mem_map, List.mem_cons, not_or, not_exists, not_and]
    constructor
    · rintro ⟨hnamed, hnodup, hapart⟩
      exact ⟨⟨hempty, hnamed⟩, ⟨fun n hn => (hapart n hn).1, hnodup⟩, hbefore,
        fun n hn => (hapart n hn).2⟩
    · rintro ⟨⟨-, hnamed⟩, ⟨hfirst, hnodup⟩, -, hrest⟩
      exact ⟨hnamed, hnodup, fun n hn => ⟨hfirst n hn, hrest n hn⟩⟩

theorem unknownDependency?_eq_none_iff {names : List String} {m : ModuleEntry} :
    unknownDependency? names m = none ↔ ∀ dep ∈ m.deps, dep ∈ names := by
  simp [unknownDependency?]

theorem validate_eq_ok_iff : validate modules = .ok () ↔ Accepted modules := by
  have hnames : checkNames [] modules = .ok () ↔ _ := checkNames_eq_ok_iff
  rw [validate]
  cases hcheck : checkNames [] modules with
  | error e =>
    rw [hcheck] at hnames
    constructor
    · intro h
      cases h
    · intro h
      cases hnames.mpr ⟨h.named, h.distinct, by simp⟩
  | ok =>
    obtain ⟨hnamed, hdistinct, -⟩ := hnames.mp hcheck
    dsimp only
    split
    · next e hunknown =>
      obtain ⟨m, hm, herror⟩ := List.exists_of_findSome?_eq_some hunknown
      constructor
      · intro h
        cases h
      · intro h
        rw [unknownDependency?_eq_none_iff.mpr (h.known m hm)] at herror
        cases herror
    · next hnone =>
      rw [List.findSome?_eq_none_iff] at hnone
      exact ⟨fun _ => ⟨hnamed, hdistinct,
        fun m hm => unknownDependency?_eq_none_iff.mp (hnone m hm)⟩, fun _ => rfl⟩

/-- An entry depends directly on another one, both by their places in the project. -/
def Needs (modules : List ModuleEntry) (i j : ModuleId) : Prop :=
  ∃ m n, modules[i]? = some m ∧ modules[j]? = some n ∧ n.name ∈ m.deps

variable {g h : ModuleGraph} {a b c d i : ModuleId} {m : ModuleEntry} {name : String}

/-- The names of the modules by their ids. -/
def moduleNames (g : ModuleGraph) : List String := g.modules.map (·.name)

theorem find?_eq (g : ModuleGraph) (name : String) :
    g.find? name = (moduleNames g).findIdx? (· = name) := by
  rw [moduleNames, List.findIdx?_map, find?]
  rfl

theorem findIdx?_eq_some_iff {names : List String} (hnodup : names.Nodup) :
    names.findIdx? (· = name) = some i ↔ names[i]? = some name := by
  rw [List.findIdx?_eq_some_iff_getElem, List.getElem?_eq_some_iff]
  simp only [decide_eq_true_eq]
  constructor
  · rintro ⟨hi, hname, -⟩
    exact ⟨hi, hname⟩
  · rintro ⟨hi, hname⟩
    refine ⟨hi, hname, fun j hj hsame => ?_⟩
    have heq := hnodup.getElem_inj_iff.mp (hsame.trans hname.symm)
    omega

/-- In a graph with the names of the project, a module has the id of its entry's place. -/
theorem moduleId?_eq_some_iff (haccepted : Accepted modules)
    (hnames : moduleNames g = modules.map (·.name)) :
    moduleId? g name = some i ↔ ∃ m, modules[i]? = some m ∧ m.name = name := by
  have hlookup : g.find? name = some i ↔ ∃ m, modules[i]? = some m ∧ m.name = name := by
    rw [find?_eq, hnames, findIdx?_eq_some_iff haccepted.distinct, List.getElem?_map,
      Option.map_eq_some_iff]
  rw [moduleId?]
  split
  · next hempty =>
    constructor
    · intro h
      cases h
    · rintro ⟨m, hm, hname⟩
      exact absurd (hname.trans hempty) (haccepted.named m (List.mem_of_getElem? hm))
  · exact hlookup

theorem moduleId?_congr (hnames : moduleNames h = moduleNames g) :
    moduleId? h = moduleId? g := by
  funext name
  rw [moduleId?, moduleId?, find?_eq, find?_eq, hnames]

theorem size_eq_length (g : ModuleGraph) : g.size = (moduleNames g).length := by
  rw [moduleNames, List.length_map, size]

theorem moduleNames_addDependency : moduleNames (g.addDependency a b) = moduleNames g := by
  apply List.ext_getElem?
  intro i
  simp only [moduleNames, addDependency, List.getElem?_map, List.getElem?_modify]
  cases g.modules[i]? with
  | none => rfl
  | some info =>
    by_cases hi : a = i
    · simp [hi]
    · simp [hi]

/-- Dependencies of one module are added one after the other. -/
theorem moduleNames_addAll (ids : List ModuleId) :
    moduleNames (ids.foldl (fun g dep => g.addDependency a dep) g) = moduleNames g := by
  induction ids generalizing g with
  | nil => rfl
  | cons id rest ih => rw [List.foldl_cons, ih, moduleNames_addDependency]

theorem edge_addAll (ids : List ModuleId) (ha : a < g.size) :
    (ids.foldl (fun g dep => g.addDependency a dep) g).Edge c d ↔
      g.Edge c d ∨ c = a ∧ d ∈ ids := by
  induction ids generalizing g with
  | nil => simp
  | cons id rest ih =>
    have hsize : a < (g.addDependency a id).size := by
      rwa [size_eq_length, moduleNames_addDependency, ← size_eq_length]
    rw [List.foldl_cons, ih hsize, edge_addDependency, List.mem_cons]
    tauto

theorem moduleNames_addDependencies : moduleNames (addDependencies g m) = moduleNames g := by
  rw [addDependencies]
  split
  · rfl
  · exact moduleNames_addAll _

theorem lt_size_of_moduleId? (hid : moduleId? g name = some a) : a < g.size := by
  rw [moduleId?] at hid
  split at hid
  · cases hid
  · exact (List.findIdx?_eq_some_iff_getElem.mp hid).1

theorem edge_addDependencies : (addDependencies g m).Edge c d ↔
    g.Edge c d ∨ moduleId? g m.name = some c ∧ ∃ dep ∈ m.deps, moduleId? g dep = some d := by
  rw [addDependencies]
  split
  · next hnone => simp [hnone]
  · next id hid =>
    rw [edge_addAll _ (lt_size_of_moduleId? hid), List.mem_filterMap, hid, Option.some_inj]
    constructor
    · rintro (hedge | ⟨rfl, hd⟩)
      · exact .inl hedge
      · exact .inr ⟨rfl, hd⟩
    · rintro (hedge | ⟨rfl, hd⟩)
      · exact .inl hedge
      · exact .inr ⟨rfl, hd⟩

/-- All entries add their dependencies to a graph that has their modules. -/
theorem addDependencies_all (entries : List ModuleEntry) :
    moduleNames (entries.foldl addDependencies g) = moduleNames g ∧
      ∀ c d, (entries.foldl addDependencies g).Edge c d ↔ g.Edge c d ∨
        ∃ m ∈ entries, moduleId? g m.name = some c ∧ ∃ dep ∈ m.deps, moduleId? g dep = some d := by
  induction entries generalizing g with
  | nil => simp
  | cons m rest ih =>
    obtain ⟨hnames, hedges⟩ := ih (g := addDependencies g m)
    have hsame := moduleId?_congr (moduleNames_addDependencies (g := g) (m := m))
    refine ⟨hnames.trans moduleNames_addDependencies, fun c d => ?_⟩
    rw [List.foldl_cons, hedges, hsame, edge_addDependencies]
    simp only [List.mem_cons, exists_eq_or_imp]
    exact or_assoc

/-- Names that are used once are all added. -/
theorem declareModules_eq (hnamed : ∀ m ∈ modules, m.name ≠ "")
    (hdistinct : (modules.map (·.name)).Nodup) :
    declareModules modules = ⟨modules.map fun m => ⟨m.name, []⟩⟩ := by
  induction modules using List.reverseRecOn with
  | nil => rfl
  | append_singleton front m ih =>
    rw [List.map_append, List.nodup_append] at hdistinct
    obtain ⟨hfront, -, hapart⟩ := hdistinct
    have hdeclared := ih (fun n hn => hnamed n (List.mem_append_left _ hn)) hfront
    have hnew : find? ⟨front.map fun m => ⟨m.name, []⟩⟩ m.name = none := by
      rw [find?_eq, List.findIdx?_eq_none_iff]
      intro name hname
      simp only [moduleNames, List.map_map] at hname
      simpa using hapart name hname m.name (by simp)
    rw [declareModules] at hdeclared ⊢
    rw [List.foldl_append, hdeclared, List.foldl_cons, List.foldl_nil,
      if_neg (hnamed m (by simp)), add, hnew, List.map_append]
    rfl

theorem moduleNames_moduleGraph (haccepted : Accepted modules) :
    moduleNames (moduleGraph modules) = modules.map (·.name) := by
  rw [moduleGraph, (addDependencies_all modules).1,
    declareModules_eq haccepted.named haccepted.distinct]
  simp [moduleNames, Function.comp_def]

/-- The edges of the module graph are the dependencies of the entries. -/
theorem edge_moduleGraph (haccepted : Accepted modules) :
    (moduleGraph modules).Edge c d ↔ Needs modules c d := by
  have hnames : moduleNames (declareModules modules) = modules.map (·.name) := by
    rw [← moduleNames_moduleGraph haccepted, moduleGraph, (addDependencies_all modules).1]
  have hnone : ¬ (declareModules modules).Edge c d := by
    rw [declareModules_eq haccepted.named haccepted.distinct, Edge, deps, List.getElem?_map]
    cases modules[c]? <;> simp
  rw [moduleGraph, (addDependencies_all modules).2 c d]
  simp only [hnone, false_or, moduleId?_eq_some_iff haccepted hnames, Needs]
  constructor
  · rintro ⟨m, hm, ⟨m', hm', hsame⟩, dep, hdep, n, hn, rfl⟩
    have heq : m' = m :=
      List.inj_on_of_nodup_map haccepted.distinct (List.mem_of_getElem? hm') hm hsame
    exact ⟨m, n, heq ▸ hm', hn, hdep⟩
  · rintro ⟨m, n, hm, hn, hdep⟩
    exact ⟨m, List.mem_of_getElem? hm, ⟨m, hm, rfl⟩, n.name, hdep, n, hn, rfl⟩

theorem reaches_moduleGraph (haccepted : Accepted modules) :
    (moduleGraph modules).Reaches c d ↔ Relation.TransGen (Needs modules) c d := by
  have hedges : (moduleGraph modules).Edge = Needs modules := by
    funext c d
    exact propext (edge_moduleGraph haccepted)
  rw [Reaches, hedges]

/-- The file at a path can be read, and what it says can be parsed. -/
def Readable (files : FileAccess Id) (path : String) : Prop :=
  ∃ source tree, files.read path = .ok source ∧ parse source = .ok tree

/-- What an input is made from. -/
structure Origin where
  name : String
  module : Option ModuleId
  isExtern : Bool
  source : Option String
deriving DecidableEq, Repr

def inputOrigin (input : Input) : Origin :=
  ⟨input.name, input.module, input.isExtern, input.source⟩

/-- What the input of a file is made from. -/
def Job.origin (files : FileAccess Id) (job : Job) : Origin :=
  ⟨job.path, job.module, job.isExtern, (files.read job.path).toOption⟩

/-- The inputs of the files stand behind those that were there before. Nothing else is known to the
program that was not known before. -/
structure Loaded (files : FileAccess Id) (p : Program) (jobs : List Job) (q : Program) : Prop where
  modules : q.modules = p.modules
  bag : q.bag = p.bag
  inputs : q.inputs.map inputOrigin = p.inputs.map inputOrigin ++ jobs.map (Job.origin files)
  numbered : q.inputs.map (·.id) = p.inputs.map (·.id) ++ List.range' p.inputs.length jobs.length

section Load

variable {files : FileAccess Id} {p q r : Program} {job : Job} {jobs front back : List Job}

theorem Loaded.length (h : Loaded files p jobs q) :
    q.inputs.length = p.inputs.length + jobs.length := by
  have hinputs := congrArg List.length h.inputs
  simpa using hinputs

theorem Loaded.append (hfront : Loaded files p front q) (hback : Loaded files q back r) :
    Loaded files p (front ++ back) r where
  modules := hback.modules.trans hfront.modules
  bag := hback.bag.trans hfront.bag
  inputs := by rw [hback.inputs, hfront.inputs, List.map_append, List.append_assoc]
  numbered := by
    rw [hback.numbered, hfront.numbered, hfront.length, List.append_assoc, List.length_append,
      List.range'_append_1]

theorem load_cons (p : Program) : Id.run (load files p (job :: jobs)) =
    match files.read job.path with
    | .error e => ⟨[], .error (.unreadable job.path e)⟩
    | .ok source =>
      match p.addParsed job.path source job.module job.isExtern with
      | (_, .error e) =>
        ⟨[], .error (if job.isExtern then .badExtern job.path e else .badSource job.path e)⟩
      | (p, .ok _) =>
        ⟨job.path :: (Id.run (load files p jobs)).filesRead, (Id.run (load files p jobs)).result⟩ :=
  rfl

/-- A file that can be read and parsed becomes an input, and the others are loaded after it. -/
theorem load_readable (p : Program) (jobs : List Job) (h : Readable files job.path) :
    ∃ q, Loaded files p [job] q ∧
      Id.run (load files p (job :: jobs)) =
        ⟨job.path :: (Id.run (load files q jobs)).filesRead,
          (Id.run (load files q jobs)).result⟩ := by
  obtain ⟨source, tree, hread, hparse⟩ := h
  have horigin : job.origin files = ⟨job.path, job.module, job.isExtern, some source⟩ := by
    rw [Job.origin, hread]
    rfl
  obtain ⟨q, hadd, hmodules, hbag, root, hinputs⟩ : ∃ q,
      p.addParsed job.path source job.module job.isExtern = (q, .ok p.inputs.length) ∧
        q.modules = p.modules ∧ q.bag = p.bag ∧ ∃ root, q.inputs = p.inputs ++
          [⟨p.inputs.length, job.path, job.module, job.isExtern, root, some source⟩] := by
    rw [Program.addParsed_of_ok hparse]
    exact ⟨_, rfl, rfl, rfl, _, rfl⟩
  refine ⟨q, ⟨hmodules, hbag, ?_, ?_⟩, ?_⟩
  · rw [hinputs, List.map_append, List.map_singleton, List.map_singleton, horigin]
    rfl
  · rw [hinputs, List.map_append]
    rfl
  · rw [load_cons, hread]
    dsimp only
    rw [hadd]

/-- Nothing more is loaded after a file that cannot be read or parsed. -/
theorem load_unreadable (p : Program) (jobs : List Job) (h : ¬ Readable files job.path) :
    ∃ f, (∀ names, f ≠ .circular names) ∧
      Id.run (load files p (job :: jobs)) = ⟨[], .error f⟩ := by
  rw [load_cons]
  cases hread : files.read job.path with
  | error e =>
    refine ⟨.unreadable job.path e, ?_, rfl⟩
    intro names hcircular
    cases hcircular
  | ok source =>
    cases hparse : parse source with
    | error refusal =>
      refine ⟨if job.isExtern then .badExtern job.path refusal.error
        else .badSource job.path refusal.error, ?_, ?_⟩
      · intro names hcircular
        split at hcircular <;> cases hcircular
      · dsimp only
        rw [Program.addParsed_of_error hparse]
    | ok tree => exact absurd ⟨source, tree, hread, hparse⟩ h

/-- Files are loaded up to the first one that cannot be read or parsed. -/
theorem load_cases (files : FileAccess Id) (p : Program) (jobs : List Job) :
    (∀ job ∈ jobs, Readable files job.path) ∧
        (∃ q, Loaded files p jobs q ∧ Id.run (load files p jobs) = ⟨jobs.map (·.path), .ok q⟩) ∨
      ∃ front job rest, jobs = front ++ job :: rest ∧ (∀ j ∈ front, Readable files j.path) ∧
        ¬ Readable files job.path ∧ ∃ f, (∀ names, f ≠ .circular names) ∧
          Id.run (load files p jobs) = ⟨front.map (·.path), .error f⟩ := by
  induction jobs generalizing p with
  | nil =>
    refine .inl ⟨by simp, p, ⟨rfl, rfl, ?_, ?_⟩, rfl⟩
    · simp
    · simp
  | cons job rest ih =>
    by_cases hjob : Readable files job.path
    · obtain ⟨q, hfirst, hload⟩ := load_readable p rest hjob
      rcases ih q with ⟨hrest, r, hloaded, hresult⟩ |
        ⟨front, bad, later, rfl, hfront, hbad, f, hf, hresult⟩
      · refine .inl ⟨?_, r, hfirst.append hloaded, ?_⟩
        · exact List.forall_mem_cons.mpr ⟨hjob, hrest⟩
        · rw [hload, hresult]
          rfl
      · refine .inr ⟨job :: front, bad, later, rfl, ?_, hbad, f, hf, ?_⟩
        · exact List.forall_mem_cons.mpr ⟨hjob, hfront⟩
        · rw [hload, hresult]
          rfl
    · obtain ⟨f, hf, hload⟩ := load_unreadable p rest hjob
      exact .inr ⟨[], job, rest, rfl, by simp, hjob, f, hf, hload⟩

end Load

/-- The files of a project in the order in which they are read: its externs, more externs, and the
files of each module, which belong to the module at their entry's place. -/
def planned (project : Located) (extra : List String) : List Job :=
  project.config.externs.map (fun path => externJob (Path.join project.baseDir path)) ++
    extra.map externJob ++
    project.config.modules.zipIdx.flatMap fun (m, i) =>
      m.files.map fun file => ⟨Path.join project.baseDir file, some i, false⟩

theorem jobs_eq_planned {project : Located} (extra : List String)
    (hid : ∀ m i, project.config.modules[i]? = some m → moduleId? g m.name = some i) :
    jobs project extra g = planned project extra := by
  rw [jobs, planned]
  congr 1
  conv_lhs => rw [← List.zipIdx_map_fst 0 project.config.modules, List.flatMap_map]
  refine List.flatMap_congr fun mi hmi => ?_
  rw [hid mi.1 mi.2 (List.mem_zipIdx_iff_getElem?.mp hmi)]

/-- The program before its files are loaded. -/
def unloaded (project : Located) (levels : Levels) : Program :=
  { Program.empty levels with modules := moduleGraph project.config.modules }

/-- A program that is the one of a project, with the files that were read for it. -/
structure Configured (project : Located) (files : FileAccess Id) (levels : Levels)
    (extra : List String) (filesRead : List String) (p : Program) : Prop where
  names : moduleNames p.modules = project.config.modules.map (·.name)
  depends : ∀ i j,
    p.modules.dependsOn i j ↔ Relation.TransGen (Needs project.config.modules) i j
  inputs : p.inputs.map inputOrigin = (planned project extra).map (Job.origin files)
  numbered : p.inputs.map (·.id) = List.range p.inputs.length
  read : filesRead = (planned project extra).map (·.path)
  bag : p.bag = Bag.withLevels levels

section Build

variable {project : Located} {files : FileAccess Id} {levels : Levels} {extra : List String}

theorem Loaded.configured {p : Program} (haccepted : Accepted project.config.modules)
    (h : Loaded files (unloaded project levels) (planned project extra) p) :
    Configured project files levels extra ((planned project extra).map (·.path)) p where
  names := by
    rw [h.modules]
    exact moduleNames_moduleGraph haccepted
  depends := by
    intro i j
    rw [h.modules]
    exact dependsOn_iff_reaches.trans (reaches_moduleGraph haccepted)
  inputs := h.inputs
  numbered := by
    rw [h.numbered, h.length]
    simp [unloaded, Program.empty, List.range_eq_range']
  read := rfl
  bag := h.bag

theorem cycles_moduleGraph_eq_nil (haccepted : Accepted modules) :
    (moduleGraph modules).cycles = [] ↔ ¬ ∃ i, Relation.TransGen (Needs modules) i i := by
  simp only [cycles_eq_nil, reaches_moduleGraph haccepted, not_exists]

theorem build_of_acyclic (haccepted : Accepted project.config.modules)
    (hround : ¬ ∃ i, Relation.TransGen (Needs project.config.modules) i i) :
    Id.run (build files project levels extra) =
      Id.run (load files (unloaded project levels) (planned project extra)) := by
  have hid : ∀ m i, project.config.modules[i]? = some m →
      moduleId? (moduleGraph project.config.modules) m.name = some i := fun m i hm =>
    (moduleId?_eq_some_iff haccepted (moduleNames_moduleGraph haccepted)).mpr ⟨m, hm, rfl⟩
  rw [build]
  dsimp only
  rw [(cycles_moduleGraph_eq_nil haccepted).mpr hround, jobs_eq_planned extra hid]
  rfl

theorem build_of_cyclic (haccepted : Accepted project.config.modules)
    (hround : ∃ i, Relation.TransGen (Needs project.config.modules) i i) :
    ∃ names, Id.run (build files project levels extra) = ⟨[], .error (.circular names)⟩ := by
  rw [build]
  dsimp only
  cases hcycles : (moduleGraph project.config.modules).cycles with
  | nil => exact absurd hround ((cycles_moduleGraph_eq_nil haccepted).mp hcycles)
  | cons cycle more => exact ⟨_, rfl⟩

end Build

/-- A project with modules of its own is built, unless its modules go round or a file cannot be
read or parsed. -/
theorem build_configured (project : Located) (files : FileAccess Id) (levels : Levels)
    (extra : List String) :
    (validate project.config.modules = .ok () ↔ Accepted project.config.modules) ∧
      (validate project.config.modules = .ok () →
        let built := Id.run (build files project levels extra)
        ((∃ names, built.result = .error (.circular names)) ↔
          ∃ i, Relation.TransGen (Needs project.config.modules) i i) ∧
        ((¬ ∃ i, Relation.TransGen (Needs project.config.modules) i i) →
          ((∃ p, built.result = .ok p) ↔
            ∀ job ∈ planned project extra, Readable files job.path)) ∧
        ∀ p, built.result = .ok p →
          Configured project files levels extra built.filesRead p) := by
  refine ⟨validate_eq_ok_iff, fun hvalid => ?_⟩
  have haccepted := validate_eq_ok_iff.mp hvalid
  intro built
  by_cases hround : ∃ i, Relation.TransGen (Needs project.config.modules) i i
  · obtain ⟨names, hbuilt⟩ : ∃ names, built = ⟨[], .error (.circular names)⟩ :=
      build_of_cyclic haccepted hround
    rw [hbuilt]
    refine ⟨⟨fun _ => hround, fun _ => ⟨names, rfl⟩⟩, fun hnone => absurd hround hnone, ?_⟩
    intro p hp
    cases hp
  · have hbuilt : built = _ := build_of_acyclic haccepted hround
    rcases load_cases files (unloaded project levels) (planned project extra) with
      ⟨hall, q, hloaded, hload⟩ | ⟨front, job, rest, hsplit, -, hjob, f, hf, hload⟩
    · rw [hbuilt, hload]
      refine ⟨⟨?_, fun h => absurd h hround⟩, fun _ => ⟨fun _ => hall, fun _ => ⟨q, rfl⟩⟩, ?_⟩
      · rintro ⟨names, hnames⟩
        cases hnames
      · intro p hp
        cases hp
        exact hloaded.configured haccepted
    · rw [hbuilt, hload]
      refine ⟨⟨?_, fun h => absurd h hround⟩, fun _ => ⟨?_, fun hall => ?_⟩, ?_⟩
      · rintro ⟨names, hnames⟩
        exact absurd (Except.error.inj hnames) (hf names)
      · rintro ⟨p, hp⟩
        cases hp
      · have hmem : job ∈ planned project extra := by
          rw [hsplit]
          simp
        exact absurd (hall job hmem) hjob
      · intro p hp
        cases hp

/-- Two modules, of which the first one depends on the second, and externs from both sides. -/
theorem build_configured_pair :
    let project : Located :=
      ⟨⟨["e.js"], [⟨"app", ["base"], ["a.js"]⟩, ⟨"base", [], ["b.js"]⟩], Options.none⟩, "dir"⟩
    let files : FileAccess Id := FileTree.access ⟨none, [(["dir", "e.js"], some "var e;"),
      (["more.js"], some "var m;"), (["dir", "a.js"], some "b;"), (["dir", "b.js"], some "var b;")],
      []⟩
    validate project.config.modules = .ok () ∧
      ∃ p, (Id.run (build files project Levels.none ["more.js"])).result = .ok p ∧
        Configured project files Levels.none ["more.js"]
          ["dir/e.js", "more.js", "dir/a.js", "dir/b.js"] p := by
  intro project files
  have hvalid : validate project.config.modules = .ok () := by decide
  obtain ⟨-, hbuilt⟩ := build_configured project files Levels.none ["more.js"]
  have hok : (Id.run (build files project Levels.none ["more.js"])).result.isOk := by
    decide +kernel
  have hread : (Id.run (build files project Levels.none ["more.js"])).filesRead =
      ["dir/e.js", "more.js", "dir/a.js", "dir/b.js"] := by
    decide +kernel
  refine ⟨hvalid, ?_⟩
  cases hresult : (Id.run (build files project Levels.none ["more.js"])).result with
  | error f =>
    rw [hresult] at hok
    cases hok
  | ok p =>
    have hconfigured := (hbuilt hvalid).2.2 p hresult
    rw [hread] at hconfigured
    exact ⟨p, rfl, hconfigured⟩

end RefCheck.Project
