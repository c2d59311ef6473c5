import Mathlib.Logic.Relation
import RefCheck.Proofs.Scope.Hoisting
import RefCheck.Proofs.Script.Shape

/-!
# What declares a name

A name is declared in a statement if a variable statement or the declaration of a function stands
anywhere in it that names it, but not inside a function in it. Of several declarations the first one
counts. This is said of the nodes in a store here, whatever their kinds, and what is hoisted from a
tree is shown to be just that, in order.
-/

namespace RefCheck.Script

namespace NodeStore

/-- One node is another one or stands below it. -/
def Above (s : NodeStore) : NodeId → NodeId → Prop :=
  Relation.ReflTransGen fun n c => some c ∈ s.children (some n)

/-- One node comes before another one: they stand below two children of a node, in this order. -/
def Precedes (s : NodeStore) (a b : NodeId) : Prop :=
  ∃ n c d, [some c, some d].Sublist (s.children (some n)) ∧ s.Above c a ∧ s.Above d b

/-- A name is declared by a node in a statement, outside all functions in it. -/
inductive DeclaredIn (s : NodeStore) : (statement name : NodeId) → Prop
  | var {n d} : s.kind? (some n) = some .var → some d ∈ s.children (some n) → DeclaredIn s n d
  | function {n d} : s.isFunctionDeclaration (some n) → s.functionName (some n) = some d →
      DeclaredIn s n d
  | inside {n c d} : s.kind? (some n) ≠ some .function → some c ∈ s.children (some n) →
      DeclaredIn s c d → DeclaredIn s n d

/-- A name is declared by a function: as its own name if it is an expression, as a parameter, or in
its body. -/
def DeclaredBy (s : NodeStore) (function name : NodeId) : Prop :=
  s.isFunctionExpression (some function) ∧ s.functionName (some function) = some name ∨
  some name ∈ s.children (s.functionParams (some function)) ∨
  ∃ body, s.functionBody (some function) = some body ∧ s.DeclaredIn body name

/-- A function without a name has a node with an empty text in its place. -/
def Spells (s : NodeStore) (name : String) (d : NodeId) : Prop :=
  name ≠ "" ∧ s.text (some d) = name

/-- The first declaration of a name among some. -/
structure First (s : NodeStore) (among : NodeId → Prop) (name : String) (d : NodeId) : Prop where
  declared : among d
  spells : s.Spells name d
  earliest : ∀ e, among e → s.Spells name e → e = d ∨ s.Precedes d e

end NodeStore

/-- Nothing is declared below the tree outside functions. -/
inductive Tree.Value : Tree → Prop
  | node {kind text span children} : kind ≠ .var → ¬ kind.isOpen →
      (kind ≠ .function → ∀ t ∈ children, Value t) → Value (.node kind text span children)

/-- Whatever is declared outside functions is declared by statements inside statements. -/
inductive Tree.Layered : Tree → Prop
  | node {kind text span children} : kind.isOpen ∨ kind = .function ∨ (∀ t ∈ children, t.Value) →
      (∀ t ∈ children, Layered t) → Layered (.node kind text span children)

/-- The roles in which nothing is declared outside functions. -/
def Role.isValue : Role → Bool
  | statement | block | branch => false
  | _ => true

section Fits

variable {n : Nat} {role : Role} {t : Tree}

theorem FitsAs.value {rule : NameRule} (h : FitsAs rule n role t) (hrole : role.isValue) :
    t.Value := by
  induction h with
  | name _ ih | functionValue _ ih | parentheses _ ih | members _ ih | firstOperand _ ih
  | operand _ ih | expression _ ih => exact ih rfl
  | @literal _ kind _ _ h => cases kind <;> cases h <;> exact .node (by decide) (by decide) nofun
  | function => exact .node (by decide) (by decide) fun h => absurd rfl h
  | block | plainBranch | wrappedBranch | blockStatement | var | functionStatement | exprResult
  | retNothing | ret | ifThen | ifElse | label | jump | jumpTo | empty => cases hrole
  | _ => exact .node (by decide) (by decide) fun _ => by simp_all [Role.isValue]

theorem layered_of_fits (h : Fits n role t) : t.Layered := by
  have hvalues : ∀ {n role} {trees : List Tree}, role.isValue →
      (∀ t ∈ trees, Fits n role t) → ∀ t ∈ trees, t.Value :=
    fun hrole htrees t ht => (htrees t ht).value hrole
  induction h with
  | plainBranch _ ih | blockStatement _ ih | functionStatement _ ih | name _ ih
  | functionValue _ ih | parentheses _ ih | members _ ih | firstOperand _ ih | operand _ ih
  | expression _ ih => exact ih
  | block _ ih => exact .node (.inl rfl) ih
  | wrappedBranch _ ih => exact .node (.inl rfl) (List.forall_mem_singleton.mpr ih)
  | var _ hnames ih => exact .node (.inr (.inr (hvalues rfl hnames))) ih
  | ifThen | ifElse | label => exact .node (.inl rfl) (by simp_all)
  | function => exact .node (.inr (.inl rfl)) (by simp_all)
  | paramList hparams ih => exact .node (.inr (.inr (hvalues rfl hparams))) ih
  | call hcallee harguments ih ihs =>
    refine .node (.inr (.inr (List.forall_mem_cons.mpr ⟨hcallee.value rfl, ?_⟩)))
      (List.forall_mem_cons.mpr ⟨ih, ihs⟩)
    exact hvalues rfl harguments
  | exprResult hvalue ih | ret hvalue ih | jumpTo _ hvalue ih | initialized _ hvalue ih
  | unary hvalue ih =>
    exact .node (.inr (.inr (List.forall_mem_singleton.mpr (hvalue.value rfl))))
      (List.forall_mem_singleton.mpr ih)
  | getProp hleft hright ih ih' | binary hleft hright ih ih' | assign hleft _ hright ih ih' =>
    have hpair : ∀ {P : Tree → Prop} {a b : Tree}, P a → P b → ∀ t ∈ [a, b], P t :=
      fun ha hb => List.forall_mem_cons.mpr ⟨ha, List.forall_mem_singleton.mpr hb⟩
    exact .node (.inr (.inr (hpair (hleft.value rfl) (hright.value rfl)))) (hpair ih ih')
  | _ => exact .node (.inr (.inr nofun)) nofun

end Fits

theorem Tree.Layered.children {t : Tree} (h : t.Layered) : ∀ c ∈ t.children, c.Layered := by
  cases h with
  | node _ hchildren => exact hchildren

theorem NodeKind.isOpen_of_holdsStatements {kind : NodeKind} (h : kind.holdsStatements) :
    kind.isOpen := by
  cases kind <;> first | rfl | cases h

namespace NodeStore

variable {s : NodeStore} {parent : Option NodeId} {p c : Planted} {above : NodeKind}
  {among : NodeId → Prop} {names : List Planted} {d : NodeId}

theorem Above.refl (n : NodeId) : s.Above n n := Relation.ReflTransGen.refl

theorem Above.head {n m : NodeId} (hm : some m ∈ s.children (some n)) (h : s.Above m d) :
    s.Above n d := Relation.ReflTransGen.head hm h

theorem mem_children {n m : NodeId} {trees : List Planted}
    (hn : s.children (some n) = trees.map fun c => some c.root) :
    some m ∈ s.children (some n) ↔ ∃ c ∈ trees, c.root = m := by
  rw [hn]
  simp

theorem Shows.mem_children (h : s.Shows parent p) {m : NodeId} :
    some m ∈ s.children (some p.root) ↔ ∃ c ∈ p.children, c.root = m :=
  NodeStore.mem_children h.children_eq

/-- What stands below two children of a node comes in their order. -/
theorem precedes {n e : NodeId} {trees : List Planted} {c' : Planted}
    (hn : s.children (some n) = trees.map fun c => some c.root) (hpair : [c, c'].Sublist trees)
    (hc : s.Above c.root d) (hc' : s.Above c'.root e) : s.Precedes d e := by
  refine ⟨n, c.root, c'.root, ?_, hc, hc'⟩
  rw [hn]
  exact hpair.map fun c : Planted => some c.root

/-- The names are those among which something is looked for, in order. -/
structure Lists (s : NodeStore) (among : NodeId → Prop) (names : List Planted) : Prop where
  mem : ∀ d, among d ↔ ∃ q ∈ names, q.root = d
  ordered : names.Pairwise fun q q' => s.Precedes q.root q'.root
  text : ∀ q ∈ names, s.text (some q.root) = q.tree.text

theorem not_declaredIn {base : Nat} {t : Tree} (hvalue : t.Value) (h : s.Shows parent ⟨base, t⟩)
    (habove : s.kind? parent = some above) (hplain : ¬ above.holdsStatements) :
    ¬ s.DeclaredIn (Planted.root ⟨base, t⟩) d := by
  induction hvalue generalizing base parent above with
  | @node kind text span children hvar hopen hvalues ih =>
    intro hd
    cases hd with
    | var hkind =>
      rw [h.kind_eq] at hkind
      exact hvar (Option.some.inj hkind)
    | function hdeclaration =>
      rw [h.isFunctionDeclaration habove] at hdeclaration
      simp [hplain] at hdeclaration
    | inside hkind hc hd =>
      obtain ⟨c, hmem, rfl⟩ := h.mem_children.mp hc
      have hfunction : kind ≠ .function := fun heq => hkind (heq ▸ h.kind_eq)
      have hinner : ¬ kind.holdsStatements :=
        fun holds => hopen (NodeKind.isOpen_of_holdsStatements holds)
      exact ih hfunction c.tree (spread_tree hmem) (h.child hmem) h.kind_eq hinner hd

theorem Shows.above_hoisted {q : Planted} (h : s.Shows parent p) (hq : q ∈ p.hoisted above) :
    s.Above p.root q.root := by
  obtain ⟨base, t⟩ := p
  induction t generalizing base parent above with
  | node kind text span children ih =>
    have hchild : ∀ {c}, c ∈ Planted.children ⟨base, .node kind text span children⟩ →
        s.Above c.root q.root →
          s.Above (Planted.root ⟨base, .node kind text span children⟩) q.root :=
      fun hc => Above.head (h.mem_children.mpr ⟨_, hc, rfl⟩)
    rw [hoisted_eq] at hq
    split at hq
    · exact hchild hq (.refl _)
    · split at hq
      · split at hq
        · exact hchild (List.mem_of_mem_head? (by simpa using hq)) (.refl _)
        · cases hq
      · split at hq
        · obtain ⟨c, hc, hq⟩ := List.mem_flatMap.mp hq
          exact hchild hc (ih c.tree (spread_tree hc) c.base (h.child hc) hq)
        · cases hq

theorem ordered_trees {n : NodeId} {trees : List Planted}
    (hn : s.children (some n) = trees.map fun c => some c.root) :
    trees.Pairwise fun q q' => s.Precedes q.root q'.root :=
  List.pairwise_iff_forall_sublist.mpr fun hpair => precedes hn hpair (.refl _) (.refl _)

/-- What is hoisted from several children comes in their order. -/
theorem ordered_flatMap {n : NodeId} {trees : List Planted}
    (hn : s.children (some n) = trees.map fun c => some c.root)
    (hshows : ∀ c ∈ trees, s.Shows (some n) c)
    (hordered : ∀ c ∈ trees,
      (c.hoisted above).Pairwise fun q q' => s.Precedes q.root q'.root) :
    (trees.flatMap (Planted.hoisted above)).Pairwise
      fun q q' => s.Precedes q.root q'.root := by
  refine List.pairwise_flatMap.mpr ⟨hordered, List.pairwise_iff_forall_sublist.mpr ?_⟩
  intro c c' hpair q hq q' hq'
  have hc := hshows c (hpair.subset List.mem_cons_self)
  have hc' := hshows c' (hpair.subset (List.mem_cons_of_mem c List.mem_cons_self))
  exact precedes hn hpair (hc.above_hoisted hq) (hc'.above_hoisted hq')

theorem Shows.ordered_hoisted (h : s.Shows parent p) :
    (p.hoisted above).Pairwise fun q q' => s.Precedes q.root q'.root := by
  obtain ⟨base, t⟩ := p
  induction t generalizing base parent above with
  | node kind text span children ih =>
    rw [hoisted_eq]
    split
    · exact ordered_trees h.children_eq
    · split
      · split
        · cases (Planted.children ⟨base, .node kind text span children⟩).head? with
          | none => exact List.Pairwise.nil
          | some name => exact List.pairwise_singleton _ _
        · exact List.Pairwise.nil
      · split
        · exact ordered_flatMap h.children_eq (fun c hc => h.child hc)
            fun c hc => ih c.tree (spread_tree hc) c.base (h.child hc)
        · exact List.Pairwise.nil

theorem Shows.functionName_eq (h : s.Shows parent p) {name params body : Planted}
    (hparts : p.children = [name, params, body]) :
    s.functionName (some p.root) = some name.root ∧
      s.functionParams (some p.root) = some params.root ∧
      s.functionBody (some p.root) = some body.root := by
  rw [functionName, functionParams, functionBody, h.children_eq, hparts]
  exact ⟨rfl, rfl, rfl⟩

/-- The ways in which a name can be declared at the root of a shown tree. -/
theorem Shows.declaredIn_cases (h : s.Shows parent p) (habove : s.kind? parent = some above) :
    s.DeclaredIn p.root d ↔
      p.tree.kind = .var ∧ (∃ c ∈ p.children, c.root = d) ∨
      (p.tree.kind = .function ∧ above.holdsStatements) ∧
        s.functionName (some p.root) = some d ∨
      p.tree.kind ≠ .function ∧ ∃ c ∈ p.children, s.DeclaredIn c.root d := by
  have hdeclaration := h.isFunctionDeclaration habove
  constructor
  · intro hd
    cases hd with
    | var hkind hmem =>
      rw [h.kind_eq] at hkind
      exact .inl ⟨Option.some.inj hkind, h.mem_children.mp hmem⟩
    | function hfunction hname =>
      rw [hdeclaration] at hfunction
      exact .inr (.inl ⟨by simpa using hfunction, hname⟩)
    | inside hkind hc hd =>
      obtain ⟨c, hmem, rfl⟩ := h.mem_children.mp hc
      rw [h.kind_eq] at hkind
      exact .inr (.inr ⟨fun heq => hkind (congrArg some heq), c, hmem, hd⟩)
  · rintro (⟨hkind, hmem⟩ | ⟨hfunction, hname⟩ | ⟨hkind, c, hc, hd⟩)
    · exact .var (hkind ▸ h.kind_eq) (h.mem_children.mpr hmem)
    · refine .function ?_ hname
      rw [hdeclaration]
      simpa using hfunction
    · refine .inside ?_ (h.mem_children.mpr ⟨c, hc, rfl⟩) hd
      rw [h.kind_eq]
      exact fun heq => hkind (Option.some.inj heq)

/-- What is hoisted from a tree is what is declared in it. -/
theorem declaredIn_iff {base : Nat} {t : Tree} (hlayered : t.Layered)
    (h : s.Shows parent ⟨base, t⟩) (habove : s.kind? parent = some above) :
    s.DeclaredIn (Planted.root ⟨base, t⟩) d ↔
      ∃ q ∈ Planted.hoisted above ⟨base, t⟩, q.root = d := by
  induction hlayered generalizing base parent above with
  | @node kind text span children hkinds _ ih =>
    let p : Planted := ⟨base, .node kind text span children⟩
    have hih : ∀ c ∈ p.children, (s.DeclaredIn c.root d ↔ ∃ q ∈ c.hoisted kind, q.root = d) :=
      fun c hc => ih c.tree (spread_tree hc) (h.child hc) h.kind_eq
    have hsilent : ¬ kind.isOpen → kind ≠ .function →
        ¬ ∃ c ∈ p.children, s.DeclaredIn c.root d := by
      rintro hopen hfunction ⟨c, hc, hd⟩
      have hvalues := (hkinds.resolve_left hopen).resolve_left hfunction
      exact not_declaredIn (hvalues c.tree (spread_tree hc)) (h.child hc) h.kind_eq
        (fun holds => hopen (NodeKind.isOpen_of_holdsStatements holds)) hd
    rw [h.declaredIn_cases habove, hoisted_eq]
    change kind = .var ∧ (∃ c ∈ p.children, c.root = d) ∨ (kind = .function ∧ _) ∧ _ ∨
      kind ≠ .function ∧ (∃ c ∈ p.children, s.DeclaredIn c.root d) ↔ ∃ q ∈ if kind = .var then
        p.children else if kind = .function then
          if above.holdsStatements then p.children.head?.toList else []
        else if kind.isOpen then p.children.flatMap (Planted.hoisted kind) else [], q.root = d
    by_cases hvar : kind = .var
    · have hnone := hsilent (by simp [hvar, NodeKind.isOpen]) (by simp [hvar])
      simp [hvar, hnone]
    · by_cases hfunction : kind = .function
      · obtain ⟨name, params, body, hparts⟩ := h.parts hfunction
        have hname := (h.functionName_eq hparts).1
        change p.children = _ at hparts
        rw [hname]
        cases above.holdsStatements <;> simp [hfunction, hparts]
      · by_cases hopen : kind.isOpen
        · simp only [hvar, hfunction, hopen, false_and, false_or, if_false, if_true, ne_eq,
            not_false_eq_true, true_and, List.mem_flatMap]
          constructor
          · rintro ⟨c, hc, hd⟩
            obtain ⟨q, hq, heq⟩ := (hih c hc).mp hd
            exact ⟨q, ⟨c, hc, hq⟩, heq⟩
          · rintro ⟨q, ⟨c, hc, hq⟩, heq⟩
            exact ⟨c, hc, (hih c hc).mpr ⟨q, hq, heq⟩⟩
        · have hnone := hsilent hopen hfunction
          simp [hvar, hfunction, hopen, hnone]

theorem Shows.lists_hoisted (h : s.Shows parent p) (hlayered : p.tree.Layered)
    (habove : s.kind? parent = some above) : s.Lists (s.DeclaredIn p.root) (p.hoisted above) where
  mem _ := declaredIn_iff hlayered h habove
  ordered := h.ordered_hoisted
  text q hq := by
    obtain ⟨_, hshows⟩ := h.hoisted hq
    exact hshows.text_eq

theorem Shows.declaredBy_iff (h : s.Shows parent p) (hlayered : p.tree.Layered)
    (hkind : p.tree.kind = .function) (habove : s.kind? parent = some above) :
    s.DeclaredBy p.root d ↔ ∃ q ∈ p.declares above, q.root = d := by
  obtain ⟨name, params, body, hparts⟩ := h.parts hkind
  obtain ⟨hname, hparams, hbody⟩ := h.functionName_eq hparts
  have hparamsShown := h.child (c := params) (by simp [hparts])
  have hbodyShown := h.child (c := body) (by simp [hparts])
  have hbodyLayered : body.tree.Layered :=
    hlayered.children _ (spread_tree (show body ∈ p.children by simp [hparts]))
  have hin := declaredIn_iff (d := d) hbodyLayered hbodyShown h.kind_eq
  rw [NodeStore.DeclaredBy, h.isFunctionExpression habove, hname, hparams, hbody,
    hparamsShown.mem_children]
  simp only [Option.some.injEq, exists_eq_left', Planted.declares, hparts]
  rw [show s.DeclaredIn body.root d ↔ ∃ q ∈ body.hoisted .function, q.root = d from hkind ▸ hin]
  cases above.holdsStatements <;> simp [hkind, or_and_right, exists_or]

/-- A function declares its own name first, then its parameters and then what is in its body. -/
theorem Shows.ordered_declares (h : s.Shows parent p) (hkind : p.tree.kind = .function) :
    (p.declares above).Pairwise fun q q' => s.Precedes q.root q'.root := by
  obtain ⟨name, params, body, hparts⟩ := h.parts hkind
  have hparamsShown := h.child (c := params) (by simp [hparts])
  have hbodyShown := h.child (c := body) (by simp [hparts])
  have hparam : ∀ q ∈ params.children, s.Above params.root q.root := fun q hq =>
    Above.head (hparamsShown.mem_children.mpr ⟨q, hq, rfl⟩) (.refl _)
  have hown : ∀ q ∈ (if above.holdsStatements then [] else [name]), q = name := by
    intro q hq
    split at hq
    · cases hq
    · exact List.mem_singleton.mp hq
  have hnamed : (if above.holdsStatements then [] else [name]).Pairwise
      fun q q' : Planted => s.Precedes q.root q'.root := by
    split
    · exact List.Pairwise.nil
    · exact List.pairwise_singleton _ _
  rw [Planted.declares, hparts]
  refine List.pairwise_append.mpr ⟨List.pairwise_append.mpr
    ⟨hnamed, ordered_trees hparamsShown.children_eq, ?_⟩, hbodyShown.ordered_hoisted, ?_⟩
  · intro q hq q' hq'
    obtain rfl := hown q hq
    have hpair : [q, params].Sublist p.children := by simp [hparts]
    exact precedes h.children_eq hpair (.refl _) (hparam q' hq')
  · intro q hq q' hq'
    have hlast : s.Above body.root q'.root := hbodyShown.above_hoisted hq'
    rcases List.mem_append.mp hq with hq | hq
    · obtain rfl := hown q hq
      have hpair : [q, body].Sublist p.children := by simp [hparts]
      exact precedes h.children_eq hpair (.refl _) hlast
    · have hpair : [params, body].Sublist p.children := by simp [hparts]
      exact precedes h.children_eq hpair (hparam q hq) hlast

/-- What a function declares. -/
theorem Shows.lists_declares (h : s.Shows parent p) (hlayered : p.tree.Layered)
    (hkind : p.tree.kind = .function) (habove : s.kind? parent = some above) :
    s.Lists (s.DeclaredBy p.root) (p.declares above) where
  mem _ := h.declaredBy_iff hlayered hkind habove
  ordered := h.ordered_declares hkind
  text q hq := by
    obtain ⟨_, hshows⟩ := h.declares hq
    exact hshows.text_eq

/-- What the statements of a script declare. -/
theorem ShowsScript.lists_hoisted {plot : Plot} (h : s.ShowsScript plot)
    (hlayered : ∀ c ∈ plot.body, c.tree.Layered) :
    s.Lists (s.DeclaredIn plot.root) plot.hoisted where
  mem d := by
    have hbody : ∀ c ∈ plot.body,
        (s.DeclaredIn c.root d ↔ ∃ q ∈ c.hoisted .script, q.root = d) :=
      fun c hc => declaredIn_iff (hlayered c hc) (h.body c hc) h.kind_eq
    constructor
    · intro hd
      cases hd with
      | var hkind =>
        rw [h.kind_eq] at hkind
        cases hkind
      | function hfunction =>
        rw [isFunctionDeclaration, h.kind_eq] at hfunction
        simp at hfunction
      | inside _ hchild hd =>
        obtain ⟨c, hc, rfl⟩ := (mem_children h.children_eq).mp hchild
        obtain ⟨q, hq, heq⟩ := (hbody c hc).mp hd
        exact ⟨q, List.mem_flatMap.mpr ⟨c, hc, hq⟩, heq⟩
    · rintro ⟨q, hq, heq⟩
      obtain ⟨c, hc, hq⟩ := List.mem_flatMap.mp hq
      have hplain : s.kind? (some plot.root) ≠ some .function := by
        rw [h.kind_eq]
        simp
      exact .inside hplain ((mem_children h.children_eq).mpr ⟨c, hc, rfl⟩)
        ((hbody c hc).mpr ⟨q, hq, heq⟩)
  ordered := ordered_flatMap h.children_eq h.body fun c hc => (h.body c hc).ordered_hoisted
  text q hq := by
    obtain ⟨c, hc, hq⟩ := List.mem_flatMap.mp hq
    obtain ⟨_, hshows⟩ := (h.body c hc).hoisted hq
    exact hshows.text_eq

end NodeStore

end RefCheck.Script
