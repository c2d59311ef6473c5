import RefCheck.Proofs.Script.Shape

/-!
# What stands below a node

The kind of a node prescribes what stands below it: how many trees there are, of which kinds, and
which names among them have a text and nothing below them. Every node of a script that can be read
has what its kind prescribes (`prescribed_of_parse`), so only a function may have an empty name, in
front of its parameters (`unnamed_of_parse`).
-/

namespace RefCheck.Script

/-- Where a way down leads, if each step says which child is next. -/
def Tree.at? (t : Tree) : List Nat → Option Tree
  | [] => some t
  | step :: rest => t.children[step]?.bind (·.at? rest)

theorem Tree.at?_concat (t : Tree) (path : List Nat) (step : Nat) :
    t.at? (path ++ [step]) = (t.at? path).bind (·.children[step]?) := by
  induction path generalizing t with
  | nil => simp [at?]
  | cons first rest ih =>
    rw [List.cons_append, at?, at?]
    cases t.children[first]? with
    | none => rfl
    | some child => exact ih child

namespace NodeKind

def isStatement : NodeKind → Bool
  | block | var | function | exprResult | ret | ifElse | label | breakOut | continueOn
  | empty => true
  | _ => false

def isExpression : NodeKind → Bool
  | name | function | getProp | call | assign | binary | unary => true
  | kind => kind.isLiteral

/-- The kinds of nodes that never have anything below them. -/
def isBare : NodeKind → Bool
  | propertyName | empty => true
  | kind => kind.isLiteral

end NodeKind

namespace Tree

def IsStatement (t : Tree) : Prop := t.kind.isStatement

/-- An expression. A name has nothing below it here: what has an initializer is a declared variable,
not an expression. -/
structure IsExpression (t : Tree) : Prop where
  kind : t.kind.isExpression
  name : t.kind = .name → t.IsName

/-- A declared variable, which may have an initializer. -/
structure IsDeclarator (t : Tree) : Prop where
  kind : t.kind = .name
  text : t.text ≠ ""
  children : t.children = [] ∨ ∃ value, t.children = [value] ∧ value.IsExpression

/-- What trees may stand below a node of a kind. -/
def Prescribes : NodeKind → List Tree → Prop
  | .script, body | .block, body => ∀ t ∈ body, t.IsStatement
  | .var, names => names ≠ [] ∧ ∀ t ∈ names, t.IsDeclarator
  | .function, [name, params, body] =>
    (name.kind = .name ∧ name.children = []) ∧ params.kind = .paramList ∧ body.kind = .block
  | .paramList, names => ∀ t ∈ names, t.IsName
  | .ifElse, [condition, first] => condition.IsExpression ∧ first.kind = .block
  | .ifElse, [condition, first, second] =>
    condition.IsExpression ∧ first.kind = .block ∧ second.kind = .block
  | .label, [name, body] => name.IsName ∧ body.IsStatement
  | .breakOut, [] | .continueOn, [] | .ret, [] | .name, [] => True
  | .breakOut, [name] | .continueOn, [name] => name.IsName
  | .ret, [value] | .name, [value] | .exprResult, [value] | .unary, [value] => value.IsExpression
  | .getProp, [object, property] => object.IsExpression ∧ property.kind = .propertyName
  | .call, callee :: arguments => ∀ t ∈ callee :: arguments, t.IsExpression
  | .assign, [target, value] =>
    (target.IsExpression ∧ target.kind.isTarget) ∧ value.IsExpression
  | .binary, [left, right] => left.IsExpression ∧ right.IsExpression
  | kind, children => kind.isBare ∧ children = []

/-- A node has what its kind prescribes. -/
def Prescribed (t : Tree) : Prop := Prescribes t.kind t.children

end Tree

/-- What can be seen of a tree that fits a role, without looking far below it. -/
def Role.Meets : Role → Tree → Prop
  | .statement, t => t.IsStatement
  | .block, t | .branch, t => t.kind = .block
  | .function, t => t.kind = .function
  | .functionName, t => t.kind = .name ∧ t.children = []
  | .paramList, t => t.kind = .paramList
  | .plainName, t => t.IsName
  | .declarator, t => t.IsDeclarator
  | .propertyName, t => t.kind = .propertyName
  | .expression, t | .operand, t | .unary, t | .binary _, t | .members _, t => t.IsExpression

section

variable {n : Nat} {role : Role} {t : Tree}

/-- Anything but a name is an expression if its kind is. -/
theorem isExpression_of_kind (h : t.kind.isExpression) (hname : t.kind ≠ .name) :
    t.IsExpression := ⟨h, fun hkind => absurd hkind hname⟩

theorem Tree.IsName.isExpression (h : t.IsName) : t.IsExpression :=
  ⟨by rw [h.kind]; rfl, fun _ => h⟩

theorem meets_of_fits (h : Fits n role t) : role.Meets t := by
  induction h with
  | plainBranch _ ih | parentheses _ ih | members _ ih | firstOperand _ ih | operand _ ih
  | expression _ ih => exact ih
  | blockStatement _ ih | functionStatement _ ih =>
    rw [Role.Meets, Tree.IsStatement, ih]
    rfl
  | @jump _ kind _ h | @jumpTo _ kind _ _ h => cases kind <;> cases h <;> rfl
  | declared htext => exact ⟨rfl, htext, .inl rfl⟩
  | initialized htext _ ih => exact ⟨rfl, htext, .inr ⟨_, rfl, ih⟩⟩
  | plainName htext => exact ⟨_, _, rfl, htext⟩
  | functionName => exact ⟨rfl, rfl⟩
  | name _ ih => exact ih.isExpression
  | @literal _ kind _ _ h =>
    cases kind <;> cases h <;> exact isExpression_of_kind rfl nofun
  | functionValue _ ih =>
    have hkind : Tree.kind _ = NodeKind.function := ih
    exact isExpression_of_kind (by rw [hkind]; rfl) (by rw [hkind]; nofun)
  | getProp | call | unary | binary | assign => exact isExpression_of_kind rfl nofun
  | _ => rfl

theorem prescribed_of_fits (h : Fits n role t) : t.Prescribed := by
  induction h with
  | plainBranch _ ih | blockStatement _ ih | functionStatement _ ih | name _ ih
  | functionValue _ ih | parentheses _ ih | members _ ih | firstOperand _ ih | operand _ ih
  | expression _ ih => exact ih
  | block hbody => exact fun t ht => meets_of_fits (hbody t ht)
  | wrappedBranch hbody => exact List.forall_mem_singleton.mpr (meets_of_fits hbody)
  | var hne hnames => exact ⟨hne, fun t ht => meets_of_fits (hnames t ht)⟩
  | exprResult hvalue | ret hvalue | initialized _ hvalue | unary hvalue =>
    exact meets_of_fits hvalue
  | ifThen hcondition hfirst => exact ⟨meets_of_fits hcondition, meets_of_fits hfirst⟩
  | ifElse hcondition hfirst hsecond =>
    exact ⟨meets_of_fits hcondition, meets_of_fits hfirst, meets_of_fits hsecond⟩
  | label hname hbody => exact ⟨meets_of_fits hname, meets_of_fits hbody⟩
  | @jump _ kind _ h => cases kind <;> cases h <;> exact trivial
  | @jumpTo _ kind _ _ h hname => cases kind <;> cases h <;> exact meets_of_fits hname
  | @literal _ kind _ _ h => cases kind <;> cases h <;> exact ⟨rfl, rfl⟩
  | paramList hparams => exact fun t ht => meets_of_fits (hparams t ht)
  | function hname hparams hbody =>
    exact ⟨meets_of_fits hname, meets_of_fits hparams, meets_of_fits hbody⟩
  | getProp hobject hproperty => exact ⟨meets_of_fits hobject, meets_of_fits hproperty⟩
  | call hcallee harguments =>
    exact List.forall_mem_cons.mpr
      ⟨meets_of_fits hcallee, fun t ht => meets_of_fits (harguments t ht)⟩
  | binary hleft hright => exact ⟨meets_of_fits hleft, meets_of_fits hright⟩
  | assign htarget hkind hvalue =>
    exact ⟨⟨meets_of_fits htarget, hkind⟩, meets_of_fits hvalue⟩
  | empty | propertyName => exact ⟨rfl, rfl⟩
  | retNothing | declared | plainName | functionName => exact trivial

/-- Whatever stands below a tree that fits a role fits a role as well. -/
theorem child_of_fits (h : Fits n role t) : ∀ c ∈ t.children, ∃ m role, Fits m role c := by
  induction h with
  | plainBranch _ ih | blockStatement _ ih | functionStatement _ ih | name _ ih
  | functionValue _ ih | parentheses _ ih | members _ ih | firstOperand _ ih | operand _ ih
  | expression _ ih => exact ih
  | block hs | var _ hs | paramList hs => exact fun c hc => ⟨_, _, hs c hc⟩
  | wrappedBranch h | exprResult h | ret h | jumpTo _ h | initialized _ h | unary h =>
    exact List.forall_mem_singleton.mpr ⟨_, _, h⟩
  | retNothing | jump | empty | declared | plainName | functionName | literal | propertyName =>
    exact List.forall_mem_nil _
  | call h hs => exact List.forall_mem_cons.mpr ⟨⟨_, _, h⟩, fun c hc => ⟨_, _, hs c hc⟩⟩
  | ifThen h h' | label h h' | getProp h h' | binary h h' | assign h _ h' =>
    exact List.forall_mem_cons.mpr ⟨⟨_, _, h⟩, List.forall_mem_singleton.mpr ⟨_, _, h'⟩⟩
  | ifElse h h' h'' | function h h' h'' =>
    exact List.forall_mem_cons.mpr ⟨⟨_, _, h⟩,
      List.forall_mem_cons.mpr ⟨⟨_, _, h'⟩, List.forall_mem_singleton.mpr ⟨_, _, h''⟩⟩⟩

theorem prescribed_at (h : Fits n role t) {path : List Nat} {u : Tree} (hu : t.at? path = some u) :
    u.Prescribed := by
  induction path generalizing t n role with
  | nil =>
    cases hu
    exact prescribed_of_fits h
  | cons step rest ih =>
    obtain ⟨c, hc, hu⟩ := Option.bind_eq_some_iff.mp hu
    obtain ⟨m, role, hfits⟩ := child_of_fits h c (List.mem_of_getElem? hc)
    exact ih hfits hu

end

/-- No name that is prescribed is empty, unless a function may have it. -/
theorem Tree.Prescribes.text_ne {kind : NodeKind} {children : List Tree}
    (h : Prescribes kind children) (hkind : kind ≠ .function) :
    ∀ c ∈ children, c.kind = .name → c.text ≠ "" := by
  have hname : ∀ c : Tree, c.IsName → c.kind = .name → c.text ≠ "" := fun c hc _ => hc.text_ne
  have hdeclarator : ∀ c : Tree, c.IsDeclarator → c.kind = .name → c.text ≠ "" :=
    fun c hc _ => hc.text
  have hexpression : ∀ c : Tree, c.IsExpression → c.kind = .name → c.text ≠ "" :=
    fun c hc hkind => (hc.name hkind).text_ne
  have hstatement : ∀ c : Tree, c.IsStatement → c.kind = .name → c.text ≠ "" := by
    intro c hc hkind
    rw [IsStatement, hkind] at hc
    cases hc
  unfold Prescribes at h
  split at h <;> grind

theorem Tree.Prescribes.parts {children : List Tree} (h : Prescribes .function children) :
    ∃ name params body, children = [name, params, body] ∧ params.kind = .paramList ∧
      body.kind = .block := by
  match children, h with
  | [name, params, body], h => exact ⟨name, params, body, rfl, h.2⟩
  | [], h | [_], h | [_, _], h | _ :: _ :: _ :: _ :: _, h => cases h.1

/-- Of what is prescribed, only the first tree below a function may be an empty name. -/
theorem Tree.Prescribed.unnamed {t c : Tree} {i : Nat} (h : t.Prescribed)
    (hc : t.children[i]? = some c) (hkind : c.kind = .name) (htext : c.text = "") :
    t.kind = .function ∧ i = 0 := by
  by_cases hfunction : t.kind = .function
  · rw [Prescribed, hfunction] at h
    obtain ⟨name, params, body, hparts, hparams, hbody⟩ := h.parts
    rw [hparts] at hc
    match i, hc with
    | 0, _ => exact ⟨hfunction, rfl⟩
    | 1, rfl => cases hparams.symm.trans hkind
    | 2, rfl => cases hbody.symm.trans hkind
  · exact absurd htext (h.text_ne hfunction c (List.mem_of_getElem? hc) hkind)

section

variable {source : String} {tree t : Tree} {path : List Nat}

/-- Every node of a script that can be read has what its kind prescribes. -/
theorem prescribed_of_parse (h : parse source = .ok tree) (ht : tree.at? path = some t) :
    t.Prescribed := by
  obtain ⟨span, body, rfl, hbody⟩ := fits_of_parse h
  cases path with
  | nil =>
    cases ht
    exact fun s hs => meets_of_fits (hbody s hs)
  | cons step rest =>
    obtain ⟨s, hs, ht⟩ := Option.bind_eq_some_iff.mp ht
    exact prescribed_at (hbody s (List.mem_of_getElem? hs)) ht

theorem script_of_parse (h : parse source = .ok tree) : tree.kind = .script := by
  obtain ⟨span, body, rfl, -⟩ := fits_of_parse h
  rfl

/-- Only functions have empty names, and have them in front of their parameters. -/
theorem unnamed_of_parse (h : parse source = .ok tree) (ht : tree.at? path = some t)
    (hkind : t.kind = .name) (htext : t.text = "") :
    ∃ above function, path = above ++ [0] ∧ tree.at? above = some function ∧
      function.kind = .function := by
  rcases List.eq_nil_or_concat path with rfl | ⟨above, step, rfl⟩
  · cases ht
    cases (script_of_parse h).symm.trans hkind
  · rw [List.concat_eq_append, Tree.at?_concat] at ht
    obtain ⟨function, habove, hstep⟩ := Option.bind_eq_some_iff.mp ht
    obtain ⟨hfunction, rfl⟩ := (prescribed_of_parse h habove).unnamed hstep hkind htext
    exact ⟨above, function, List.concat_eq_append, habove, hfunction⟩

end

end RefCheck.Script
