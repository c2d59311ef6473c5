import Mathlib.Tactic.Ring
import RefCheck.Proofs.Script.Shape

/-!
# How high a syntax tree gets

A step down a tree leads back along a chain, from a link to what stands to its left, or else inward.
Only steps inward take levels of nesting that stay taken: a chain gives its levels back at its end,
and so its first operand may nest as deeply as if there was no chain above it. The steps inward on
one way down are therefore few (`parse_height_le_iff`), but those back add up from chain to chain,
and a tree may be higher than four times the number of levels (`parse_stackedCalls`).
-/

namespace RefCheck.Script

/-- The kinds of links. What stands to the left of a link is its first child. -/
def NodeKind.isLink : NodeKind → Bool
  | binary | getProp | call => true
  | _ => false

/-- The steps on a way down. -/
structure Descent where
  inward : Nat
  back : Nat
deriving DecidableEq, Repr

namespace Descent

def stepInward (d : Descent) : Descent := { d with inward := d.inward + 1 }

def stepBack (d : Descent) : Descent := { d with back := d.back + 1 }

end Descent

namespace Tree

mutual

/-- The number of steps on the longest way down to a leaf. -/
def height : Tree → Nat
  | node _ _ _ children => forestHeight children

/-- The same from a node above some trees. -/
def forestHeight : List Tree → Nat
  | [] => 0
  | tree :: rest => max (tree.height + 1) (forestHeight rest)

end

mutual

/-- All ways down to a leaf. -/
def descents : Tree → List Descent
  | node _ _ _ [] => [⟨0, 0⟩]
  | node kind _ _ (first :: rest) =>
    first.descents.map (if kind.isLink then Descent.stepBack else Descent.stepInward) ++
      forestDescents rest

/-- All ways inward to some trees and down to their leaves. -/
def forestDescents : List Tree → List Descent
  | [] => []
  | tree :: rest => tree.descents.map Descent.stepInward ++ forestDescents rest

end

theorem forestHeight_le_iff {trees : List Tree} {n : Nat} :
    forestHeight trees ≤ n ↔ ∀ t ∈ trees, t.height + 1 ≤ n := by
  induction trees with
  | nil => simp [forestHeight]
  | cons tree rest ih => simp [forestHeight, ih]

theorem mem_forestDescents {trees : List Tree} {d : Descent} :
    d ∈ forestDescents trees ↔ ∃ t ∈ trees, ∃ e ∈ t.descents, e.stepInward = d := by
  induction trees with
  | nil => simp [forestDescents]
  | cons tree rest ih => simp [forestDescents, ih]

theorem descents_ne_nil (t : Tree) : t.descents ≠ [] := by
  induction t with
  | node kind text span children ih =>
    cases children with
    | nil => simp [descents]
    | cons first rest =>
      have hfirst : first.descents ≠ [] := ih first List.mem_cons_self
      simp [descents, hfirst]

/-- The height is the length of the longest way down. -/
theorem height_le_iff {t : Tree} {n : Nat} :
    t.height ≤ n ↔ ∀ d ∈ t.descents, d.inward + d.back ≤ n := by
  induction t generalizing n with
  | node kind text span children ih =>
    have hstep : ∀ t ∈ children,
        (t.height + 1 ≤ n ↔ ∀ d ∈ t.descents, d.inward + d.back + 1 ≤ n) := by
      intro t ht
      cases n with
      | zero =>
        obtain ⟨d, hd⟩ := List.exists_mem_of_ne_nil _ t.descents_ne_nil
        exact ⟨fun h => absurd h (by omega), fun h => absurd (h d hd) (by omega)⟩
      | succ n => simpa only [Nat.succ_le_succ_iff] using ih t ht (n := n)
    have hinward : ∀ trees : List Tree, (∀ t ∈ trees, t ∈ children) →
        ((∀ t ∈ trees, t.height + 1 ≤ n) ↔
          ∀ d ∈ forestDescents trees, d.inward + d.back ≤ n) := by
      intro trees htrees
      constructor
      · intro h d hd
        obtain ⟨t, ht, e, he, rfl⟩ := mem_forestDescents.mp hd
        have := (hstep t (htrees t ht)).mp (h t ht) e he
        simp only [Descent.stepInward]
        omega
      · intro h t ht
        apply (hstep t (htrees t ht)).mpr
        intro e he
        have := h _ (mem_forestDescents.mpr ⟨t, ht, e, he, rfl⟩)
        simp only [Descent.stepInward] at this
        omega
    cases children with
    | nil => simp [height, forestHeight, descents]
    | cons first rest =>
      have hfirst := hstep first List.mem_cons_self
      have hrest := hinward rest fun t ht => List.mem_cons_of_mem _ ht
      have hlength : ∀ d : Descent, ∀ b : Bool,
          ((if b then Descent.stepBack else Descent.stepInward) d).inward +
            ((if b then Descent.stepBack else Descent.stepInward) d).back =
          d.inward + d.back + 1 := by
        intro d b
        cases b <;> simp [Descent.stepBack, Descent.stepInward] <;> omega
      simp only [height, forestHeight, descents, max_le_iff, forestHeight_le_iff,
        List.forall_mem_append, List.forall_mem_map, hlength, hfirst, hrest]

/-- No way down takes more than so many steps inward and so many back. -/
def Within (inward back : Nat) (t : Tree) : Prop :=
  ∀ d ∈ t.descents, d.inward ≤ inward ∧ d.back ≤ back

theorem Within.mono {n m p q : Nat} {t : Tree} (h : t.Within n m) (hn : n ≤ p) (hm : m ≤ q) :
    t.Within p q := by
  intro d hd
  have := h d hd
  omega

theorem within_forest {n m : Nat} {trees : List Tree} (h : ∀ t ∈ trees, t.Within n m) :
    ∀ d ∈ forestDescents trees, d.inward ≤ n + 1 ∧ d.back ≤ m := by
  intro d hd
  obtain ⟨t, ht, e, he, rfl⟩ := mem_forestDescents.mp hd
  have := h t ht e he
  simp only [Descent.stepInward]
  omega

theorem within_leaf {kind : NodeKind} {text : String} {span : Text.Span} {n m : Nat} :
    (node kind text span []).Within n m := by
  simp [Within, descents]

/-- Below any node but a link, all steps lead inward. -/
theorem within_node {kind : NodeKind} {text : String} {span : Text.Span} {n m : Nat}
    {children : List Tree} (hkind : kind.isLink = false) (h : ∀ t ∈ children, t.Within n m) :
    (node kind text span children).Within (n + 1) m := by
  cases children with
  | nil => exact within_leaf
  | cons first rest =>
    have heq : (node kind text span (first :: rest)).descents = forestDescents (first :: rest) := by
      simp [descents, forestDescents, hkind]
    intro d hd
    exact within_forest h d (heq ▸ hd)

/-- From a link one step leads back, and the others inward. -/
theorem within_link {kind : NodeKind} {text : String} {span : Text.Span} {n m p q : Nat}
    {first : Tree} {rest : List Tree} (hkind : kind.isLink = true) (hfirst : first.Within n m)
    (hrest : ∀ t ∈ rest, t.Within p q) (hp : p + 1 ≤ n) (hq : q ≤ m + 1) :
    (node kind text span (first :: rest)).Within n (m + 1) := by
  intro d hd
  simp only [descents, hkind, if_true, List.mem_append, List.mem_map] at hd
  rcases hd with ⟨e, he, rfl⟩ | hd
  · have := hfirst e he
    simp only [Descent.stepBack]
    omega
  · have := within_forest hrest d hd
    omega

end Tree

/-- The steps inward that a tree may have in a role, with so many levels left. -/
def Role.inward (n : Nat) : Role → Nat
  | statement => 5 * n / 2
  | block | branch => 5 * n / 2 + 1
  | function | operand | unary | binary _ | members _ => 5 * n / 2 + 2
  | expression => (5 * n + 1) / 2
  | declarator => (5 * n + 1) / 2 + 1
  | paramList => 1
  | functionName | plainName | propertyName => 0

/-- The steps back that a tree may have in a role, with so many levels left. -/
def Role.back (n : Nat) : Role → Nat
  | statement | block | branch | function | expression | declarator => n * n - n
  | members links => n * n - n + links
  | unary => n * n
  | binary links => n * n + links
  | operand => n * n + n
  | functionName | plainName | propertyName | paramList => 0

theorem FitsAs.links_le {rule : NameRule} {n links : Nat} {t : Tree} :
    FitsAs rule n (.members links) t ∨ FitsAs rule n (.binary links) t → links ≤ n := by
  rintro (h | h) <;> cases h <;> omega

theorem back_mono {n m : Nat} (h : n ≤ m) : n * n - n ≤ m * m - m := by
  obtain ⟨k, rfl⟩ := Nat.exists_eq_add_of_le h
  have hsquare : (n + k) * (n + k) = n * n + 2 * (n * k) + k * k := by ring
  have hk : k ≤ k * k := Nat.le_mul_self k
  omega

theorem square_succ (n : Nat) : (n + 1) * (n + 1) = n * n + 2 * n + 1 := by ring

theorem isLink_of_isJump {kind : NodeKind} (h : kind.isJump) : kind.isLink = false := by
  cases kind <;> first | rfl | cases h

/-- No way down a tree takes more steps than a tree in the role may have. -/
def Role.Bounds (role : Role) (n : Nat) (t : Tree) : Prop :=
  t.Within (role.inward n) (role.back n)

namespace Role.Bounds

variable {role : Role} {kind : NodeKind} {n links : Nat} {text : String} {span : Text.Span}
  {t condition first second : Tree} {children : List Tree}

theorem leaf : role.Bounds n (.node kind text span []) := Tree.within_leaf

theorem of_name (h : t.Within 0 0) : role.Bounds n t := h.mono (Nat.zero_le _) (Nat.zero_le _)

/-- Of what stands in statements, the variables that they declare may be the highest. -/
theorem declarator_of_expression (h : expression.Bounds n t) : declarator.Bounds n t :=
  h.mono (by simp only [Role.inward]; omega) le_rfl

theorem declarator_of_branch (h : branch.Bounds n t) : declarator.Bounds n t :=
  h.mono (by simp only [Role.inward]; omega) le_rfl

theorem declarator_of_statement (h : statement.Bounds n t) : declarator.Bounds n t :=
  h.mono (by simp only [Role.inward]; omega) le_rfl

/-- A statement takes a level, and what stands in it at most two steps inward. -/
theorem statement_node (hkind : kind.isLink = false) (h : ∀ t ∈ children, declarator.Bounds n t) :
    statement.Bounds (n + 1) (.node kind text span children) := by
  refine (Tree.within_node hkind h).mono ?_ (back_mono (Nat.le_succ n))
  simp only [Role.inward]
  omega

theorem branch_of_block (h : block.Bounds n t) : branch.Bounds (n + 1) t :=
  h.mono (by simp only [Role.inward]; omega) (back_mono (Nat.le_succ n))

theorem statement_of_block (h : block.Bounds n t) : statement.Bounds (n + 1) t :=
  h.mono (by simp only [Role.inward]; omega) (back_mono (Nat.le_succ n))

theorem statement_of_function (h : function.Bounds n t) : statement.Bounds (n + 1) t :=
  h.mono (by simp only [Role.inward]; omega) (back_mono (Nat.le_succ n))

theorem statement_of_expression (hkind : kind.isLink = false) (h : expression.Bounds n t) :
    statement.Bounds (n + 1) (.node kind text span [t]) :=
  statement_node hkind (List.forall_mem_singleton.mpr h.declarator_of_expression)

theorem ifThen (hcondition : expression.Bounds n condition) (hfirst : branch.Bounds n first) :
    statement.Bounds (n + 1) (.node .ifElse text span [condition, first]) :=
  statement_node rfl
    (by simpa using ⟨hcondition.declarator_of_expression, hfirst.declarator_of_branch⟩)

theorem ifElse (hcondition : expression.Bounds n condition) (hfirst : branch.Bounds n first)
    (hsecond : branch.Bounds n second) :
    statement.Bounds (n + 1) (.node .ifElse text span [condition, first, second]) :=
  statement_node rfl (by simpa using ⟨hcondition.declarator_of_expression,
    hfirst.declarator_of_branch, hsecond.declarator_of_branch⟩)

theorem label {name body : Tree} (hname : plainName.Bounds n name)
    (hbody : statement.Bounds n body) :
    statement.Bounds (n + 1) (.node .label text span [name, body]) :=
  statement_node rfl (by simpa using ⟨of_name hname, hbody.declarator_of_statement⟩)

theorem function_node {name params body : Tree} (hname : functionName.Bounds n name)
    (hparams : paramList.Bounds n params) (hbody : block.Bounds n body) :
    function.Bounds n (.node .function text span [name, params, body]) := by
  have hname : block.Bounds n name := of_name hname
  have hparams : block.Bounds n params :=
    hparams.mono (by simp only [Role.inward]; omega) (Nat.zero_le _)
  exact Tree.within_node rfl (by simpa using ⟨hname, hparams, hbody⟩)

theorem parentheses (h : expression.Bounds n t) : (members 0).Bounds n t :=
  h.mono (by simp only [Role.inward]; omega) le_rfl

theorem getProp {object property : Tree} (hobject : (members links).Bounds n object)
    (hproperty : propertyName.Bounds n property) :
    (members (links + 1)).Bounds n (.node .getProp text span [object, property]) :=
  Tree.within_link rfl hobject (List.forall_mem_singleton.mpr hproperty) (by simp [Role.inward])
    (Nat.zero_le _)

/-- The arguments of a call have a level less than the call. -/
theorem call {callee : Tree} {arguments : List Tree}
    (hcallee : (members links).Bounds (n + links + 1) callee)
    (harguments : ∀ t ∈ arguments, expression.Bounds n t) :
    (members (links + 1)).Bounds (n + links + 1) (.node .call text span (callee :: arguments)) := by
  have hback := back_mono (show n ≤ n + links + 1 by omega)
  refine Tree.within_link rfl hcallee harguments ?_ ?_
  · simp only [Role.inward]
    omega
  · simp only [Role.back, Nat.add_eq]
    omega

theorem unary_of_members (h : (members links).Bounds n t) (hlinks : links ≤ n) :
    unary.Bounds n t := by
  have hsquare := Nat.le_mul_self n
  exact h.mono le_rfl (by simp only [Role.back]; omega)

theorem unary_node (h : unary.Bounds n t) : unary.Bounds (n + 1) (.node .unary text span [t]) := by
  have hsquare := square_succ n
  refine (Tree.within_node rfl (List.forall_mem_singleton.mpr h)).mono ?_ ?_
  · simp only [Role.inward]
    omega
  · simp only [Role.back]
    omega

/-- The right operand has a level less than the chain, the left one only a link less. -/
theorem binary_node {left right : Tree} (hleft : (binary links).Bounds (n + links + 1) left)
    (hright : operand.Bounds n right) :
    (binary (links + 1)).Bounds (n + links + 1) (.node .binary text span [left, right]) := by
  have hsquare := square_succ n
  have hmore := Nat.mul_self_le_mul_self (show n + 1 ≤ n + links + 1 by omega)
  refine Tree.within_link rfl hleft (List.forall_mem_singleton.mpr hright) ?_ ?_
  · simp only [Role.inward]
    omega
  · simp only [Role.back, Nat.add_eq]
    omega

theorem operand_of_binary (h : (binary links).Bounds n t) (hlinks : links ≤ n) :
    operand.Bounds n t :=
  h.mono le_rfl (by simp only [Role.back]; omega)

theorem expression_of_operand (h : operand.Bounds n t) : expression.Bounds (n + 1) t := by
  have hsquare := square_succ n
  exact h.mono (by simp only [Role.inward]; omega) (by simp only [Role.back]; omega)

theorem assign {target value : Tree} (htarget : operand.Bounds n target)
    (hvalue : expression.Bounds n value) :
    expression.Bounds (n + 1) (.node .assign text span [target, value]) := by
  have hsquare := square_succ n
  have hvalue : operand.Bounds n value :=
    hvalue.mono (by simp only [Role.inward]; omega) (by simp only [Role.back]; omega)
  refine (Tree.within_node rfl (by simpa using ⟨htarget, hvalue⟩)).mono ?_ ?_
  · simp only [Role.inward]
    omega
  · simp only [Role.back]
    omega

end Role.Bounds

theorem bounds_of_fits {n : Nat} {role : Role} {t : Tree} (h : Fits n role t) :
    role.Bounds n t := by
  induction h with
  | block _ ih | paramList _ ih => exact Tree.within_node rfl ih
  | plainBranch _ ih => exact ih.branch_of_block
  | wrappedBranch _ ih | initialized _ _ ih =>
    exact Tree.within_node rfl (List.forall_mem_singleton.mpr ih)
  | blockStatement _ ih => exact ih.statement_of_block
  | functionStatement _ ih => exact ih.statement_of_function
  | var _ _ ih => exact .statement_node rfl ih
  | exprResult _ ih | ret _ ih => exact ih.statement_of_expression rfl
  | ifThen _ _ ihcondition ihfirst => exact ihcondition.ifThen ihfirst
  | ifElse _ _ _ ihcondition ihfirst ihsecond => exact ihcondition.ifElse ihfirst ihsecond
  | label _ _ ihname ihbody => exact ihname.label ihbody
  | jumpTo hkind _ ih =>
    exact .statement_node (isLink_of_isJump hkind) (List.forall_mem_singleton.mpr (.of_name ih))
  | retNothing | jump | empty | declared | plainName | functionName | literal | propertyName =>
    exact .leaf
  | function _ _ _ ihname ihparams ihbody => exact ihname.function_node ihparams ihbody
  | name _ ih => exact .of_name ih
  | functionValue _ ih | firstOperand _ ih => exact ih
  | parentheses _ ih => exact ih.parentheses
  | getProp _ _ ihobject ihproperty => exact ihobject.getProp ihproperty
  | call _ _ ihcallee iharguments => exact ihcallee.call iharguments
  | members h ih => exact ih.unary_of_members (FitsAs.links_le (.inl h))
  | unary _ ih => exact ih.unary_node
  | binary _ _ ihleft ihright => exact ihleft.binary_node ihright
  | operand h ih => exact ih.operand_of_binary (FitsAs.links_le (.inr h))
  | expression _ ih => exact ih.expression_of_operand
  | assign _ _ _ ihtarget ihvalue => exact ihtarget.assign ihvalue

/-- The levels of nesting bound the steps inward on each way down, and those back by far less. So a
tree is at most four times as high as there are levels exactly if no way down takes more steps back
than its steps inward leave room for. -/
theorem parse_height_le_iff (source : String) (tree : Tree) (h : parse source = .ok tree) :
    tree.Within (5 * maxNesting / 2 + 1) (maxNesting * (maxNesting - 1)) ∧
      (tree.height ≤ 4 * maxNesting ↔
        ∀ d ∈ tree.descents, d.back ≤ 4 * maxNesting - d.inward) := by
  have hwithin : tree.Within (5 * maxNesting / 2 + 1) (maxNesting * (maxNesting - 1)) := by
    obtain ⟨span, body, rfl, hbody⟩ := fits_of_parse h
    rw [Nat.mul_sub_one]
    exact Tree.within_node rfl fun t ht => bounds_of_fits (hbody t ht)
  refine ⟨hwithin, Tree.height_le_iff.trans (forall₂_congr fun d hd => ?_)⟩
  have hinward : d.inward ≤ 5 * maxNesting / 2 + 1 := (hwithin d hd).1
  have hroom : 5 * maxNesting / 2 + 1 ≤ 4 * maxNesting := by decide
  omega

/-- Calls of calls, and that in parentheses called again and again: `((a()())()())` and so on. -/
def stackedCalls (groups calls : Nat) : String :=
  String.ofList (List.replicate groups '(' ++ 'a' ::
    (List.replicate groups ((List.replicate calls ['(', ')']).flatten ++ [')'])).flatten ++ [';'])

theorem height_stackedCalls :
    (parse (stackedCalls 5 205)).toOption.map Tree.height = some 1027 := by
  rw [parse, tokenize, stackedCalls, String.toList_ofList]
  decide +kernel

/-- Five chains of calls around each other are read, and each adds to the height. -/
theorem parse_stackedCalls :
    ∃ tree, parse (stackedCalls 5 205) = .ok tree ∧ 4 * maxNesting < tree.height := by
  have h := height_stackedCalls
  cases hparse : parse (stackedCalls 5 205) with
  | error refusal => rw [hparse] at h; cases h
  | ok tree =>
    rw [hparse] at h
    have hheight : tree.height = 1027 := Option.some.inj h
    exact ⟨tree, rfl, by rw [hheight]; decide⟩

theorem parse_height_le_iff_stackedCalls :
    ∃ tree, parse (stackedCalls 5 205) = .ok tree ∧ tree.height = 1027 ∧
      tree.Within (5 * maxNesting / 2 + 1) (maxNesting * (maxNesting - 1)) ∧
      (tree.height ≤ 4 * maxNesting ↔
        ∀ d ∈ tree.descents, d.back ≤ 4 * maxNesting - d.inward) := by
  have h := height_stackedCalls
  cases hparse : parse (stackedCalls 5 205) with
  | error refusal => rw [hparse] at h; cases h
  | ok tree =>
    rw [hparse] at h
    exact ⟨tree, rfl, Option.some.inj h, parse_height_le_iff _ tree hparse⟩

end RefCheck.Script
