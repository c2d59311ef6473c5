import RefCheck.Proofs.Script.Passing
import RefCheck.Proofs.Script.Shape
import RefCheck.Proofs.Script.Spelling

/-!
# Printed trees are read again

Every production passes over the words of what it is for, and answers with the same tree but for its
spans, unless the parentheses that the printer adds nest too deeply.
-/

namespace RefCheck.Script

open RefCheck.Text Reader

/-- A production is entered if there is a level left for it. -/
theorem passes_nested {α : Type} {production : Level → Reader α} {before after : List Word}
    {Q : α → Prop} {n : Nat}
    (h : ∀ n, Passes before (production (levelAbove (below n))) after Q) :
    Passes before (nested (below n) production) after Q := by
  cases n with
  | zero => exact passes_tooDeeply
  | succ n => exact h n

/-- What can be read as the first operand of an expression. -/
structure Tree.Atomic (t : Tree) : Prop where
  opens : (∃ v, t.enclosed = [v] ∧ v.kind.leafKind.isSome) ∨
    ∃ vs, t.enclosed = .of .openParen :: vs
  reread : ∀ n us, us ≠ [] → Rereads (t.enclosed ++ us)
    (primary (statement (below n)) (assignment (below n))) us t

section Expressions

variable {n : Nat} {v w : Word} {vs us ws : List Word} {Q R : Tree → Prop}

/-- The tokens that an operand starts with, unless it starts with an operator. -/
def TokenKind.isOperand (kind : TokenKind) : Bool :=
  kind.leafKind.isSome || kind = .openParen || kind = .function

theorem isUnaryOperator_of_isOperand {t : Token} (h : t.kind.isOperand) :
    t.isUnaryOperator = false := by
  rw [Token.isUnaryOperator]
  cases hkind : t.kind <;> rw [hkind] at h <;> first | rfl | cases h

theorem Tree.Atomic.head {t : Tree} (h : t.Atomic) :
    ∃ v vs, t.enclosed = v :: vs ∧ v.kind.isOperand := by
  rcases h.opens with ⟨v, hv, hleaf⟩ | ⟨vs, hvs⟩
  · exact ⟨v, [], hv, by simp [TokenKind.isOperand, hleaf]⟩
  · exact ⟨_, vs, hvs, rfl⟩

/-- An operand goes on with members and calls. -/
theorem passes_operand (hv : v.kind.isOperand)
    (hfirst : Passes (v :: vs) (primary (statement (below n)) (assignment (below n))) us Q)
    (hchain : ∀ a, Q a → Passes us (postfixChain (below n) a) ws R) :
    Passes (v :: vs) (unary (below n)) ws R := by
  refine passes_current fun t ht => ?_
  have hkind : t.kind.isOperand := by rwa [show t.kind = v.kind from congrArg Word.kind ht]
  rw [isUnaryOperator_of_isOperand hkind]
  exact passes_bind hfirst hchain

theorem passes_postfixChain_end {left : Tree} (hdot : w.kind ≠ .dot)
    (hopening : w.kind ≠ .openParen) (hleft : Q left) :
    Passes (w :: us) (postfixChain (below n) left) (w :: us) Q := by
  refine passes_current fun t ht => ?_
  have hkind : t.kind = w.kind := congrArg Word.kind ht
  rw [if_neg (by simp [hkind, hdot, hopening])]
  exact passes_pure hleft

theorem passes_unary (hv : v.kind.isOperand) (hdot : w.kind ≠ .dot)
    (hopening : w.kind ≠ .openParen)
    (h : Passes (v :: vs) (primary (statement (below n)) (assignment (below n))) (w :: us) Q) :
    Passes (v :: vs) (unary (below n)) (w :: us) Q :=
  passes_operand hv h fun _ ha => passes_postfixChain_end hdot hopening ha

theorem passes_binaryChain_end {left : Tree} {floor : Nat} (hoperator : w.kind ≠ .operator)
    (hleft : Q left) : Passes (w :: us) (binaryChain (below n) floor left) (w :: us) Q := by
  refine passes_current fun t ht => ?_
  have hkind : t.kind = w.kind := congrArg Word.kind ht
  have hlow : (t.precedenceAbove floor).isSome = false := by
    simp [Token.precedenceAbove, hkind, hoperator]
  rw [hlow]
  exact passes_pure hleft

theorem TokenKind.ne_of_isEnd {kind : TokenKind} (h : kind.isEnd) :
    kind ≠ .dot ∧ kind ≠ .openParen ∧ kind ≠ .operator ∧ kind ≠ .equals := by
  cases kind <;> first | exact absurd h Bool.false_ne_true | decide

theorem passes_binary {floor : Nat} (hoperator : w.kind ≠ .operator)
    (h : Passes vs (unary (below n)) (w :: us) Q) :
    Passes vs (binary (below n) floor) (w :: us) Q :=
  passes_bind h fun _ ha => passes_binaryChain_end hoperator ha

/-- An expression without an assignment is what its operators make of their operands. -/
theorem passes_assignmentBody (hend : w.kind.isEnd)
    (h : Passes vs (binary (below n) 0) (w :: us) Q) :
    Passes vs (assignmentBody (below n)) (w :: us) Q := by
  obtain ⟨-, -, -, hequals⟩ := TokenKind.ne_of_isEnd hend
  refine passes_bind h fun a ha => passes_isAt ?_
  rw [decide_eq_false hequals]
  exact passes_pure ha

/-- An expression is entered if there is a level left for it. -/
theorem passes_assignment (h : ∀ n, Passes vs (assignmentBody (below n)) us Q) :
    Passes vs (assignment (below n)) us Q :=
  passes_nested h

theorem passes_leaf {kind : NodeKind} {span : Span} (hleaf : v.kind.leafKind = some kind)
    (hne : us ≠ []) :
    Rereads (v :: us) (primary (statement (below n)) (assignment (below n))) us
      (.node kind v.text span []) := by
  refine passes_current fun t ht => ?_
  have hkind : t.kind = v.kind := congrArg Word.kind ht
  rw [hkind, hleaf]
  refine passes_bind (passes_advance hne) fun a ha => passes_pure ?_
  have htext : a.text = v.text := congrArg Word.text ha
  simp [htext]

/-- An expression in parentheses can be an operand. -/
theorem atomic_of_enclosed {t : Tree} (hkind : t.kind.isLeaf = false)
    (h : ∀ n us, Rereads (t.words ++ .of .closeParen :: us) (assignment (below n))
      (.of .closeParen :: us) t) : t.Atomic where
  opens := .inr ⟨t.words ++ [.of .closeParen], by
    simp only [Tree.enclosed, enclosed, hkind]
    rfl⟩
  reread n us hne := by
    have hwords : t.enclosed ++ us =
        .of .openParen :: (t.words ++ .of .closeParen :: us) := by
      simp [Tree.enclosed, enclosed, hkind]
    rw [hwords]
    refine passes_current fun token htoken => ?_
    have hopening : token.kind = .openParen := congrArg Word.kind htoken
    rw [hopening]
    refine passes_bind (passes_advance (by simp)) fun _ _ => ?_
    refine passes_bind (h n us) fun a ha => ?_
    exact passes_bind (passes_holding (passes_expect rfl hne)) fun _ _ => passes_pure ha

/-- It is enough that the words without their parentheses are an expression. -/
theorem atomic_of_assignmentBody {t : Tree} (hkind : t.kind.isLeaf = false)
    (h : ∀ n us, Rereads (t.words ++ .of .closeParen :: us) (assignmentBody (below n))
      (.of .closeParen :: us) t) : t.Atomic :=
  atomic_of_enclosed hkind fun _ us => passes_assignment fun n => h n us

/-- An operand alone is an expression. -/
theorem Tree.Atomic.passes_assignment {t : Tree} (h : t.Atomic) (hend : w.kind.isEnd) :
    Rereads (t.enclosed ++ w :: us) (assignment (below n)) (w :: us) t := by
  obtain ⟨hdot, hopening, hoperator, -⟩ := TokenKind.ne_of_isEnd hend
  obtain ⟨v, vs, hvs, hv⟩ := h.head
  refine Script.passes_assignment fun n =>
    passes_assignmentBody hend (passes_binary hoperator ?_)
  have hread := h.reread n (w :: us) (List.cons_ne_nil _ _)
  rw [hvs] at hread ⊢
  exact passes_unary hv hdot hopening hread

/-- A member or a call, with no other behind it. -/
theorem passes_postfixChain {left : Tree} (hw : w.kind = .dot ∨ w.kind = .openParen)
    (hstep : ∀ n, Passes (w :: ws) (postfixStep (assignment (below n)) left)
      (.of .closeParen :: us) Q) :
    Passes (w :: ws) (postfixChain (below n) left) (.of .closeParen :: us) Q := by
  refine passes_current fun t ht => ?_
  have hkind : t.kind = w.kind := congrArg Word.kind ht
  rw [if_pos (by simpa [hkind] using hw)]
  cases n with
  | zero => exact passes_holding passes_tooDeeply
  | succ n =>
    refine passes_bind (passes_holding (hstep n)) fun a ha => ?_
    exact passes_postfixChain_end (by decide) (by decide) ha

theorem passes_member {left : Tree} {name : String} {a : Reader Tree} (hne : us ≠ []) :
    Passes (.of .dot :: .name name :: us) (postfixStep a left) us fun b =>
      b.bare = .node .getProp "" .none [left.bare, .node .propertyName name .none []] := by
  refine passes_eat rfl (by simp) ?_
  refine passes_bind (passes_expect rfl hne) fun t ht => passes_pure ?_
  have htext : t.text = name := congrArg Word.text ht
  simp [htext]

theorem TokenKind.ne_of_isOperand {kind : TokenKind} (h : kind.isOperand) :
    kind ≠ .closeParen ∧ kind ≠ .semicolon ∧ kind ≠ .closeBrace ∧ kind ≠ .endOfInput := by
  cases kind <;> first | decide | cases h

theorem Tree.Atomic.head_ne {t : Tree} (h : t.Atomic) :
    ∃ v vs, t.enclosed = v :: vs ∧ v.kind ≠ .closeParen := by
  obtain ⟨v, vs, hvs, hv⟩ := h.head
  exact ⟨v, vs, hvs, (TokenKind.ne_of_isOperand hv).1⟩

theorem passes_arguments {trees : List Tree} (h : ∀ t ∈ trees, t.Atomic) :
    Passes (listWords trees ++ .of .closeParen :: us) (arguments (assignment (below n)))
      (.of .closeParen :: us) fun as => as.map Tree.bare = trees.map Tree.bare := by
  refine passes_isAt_items (fun t ht => (h t ht).head_ne) (fun hnone => ?_) fun hsome => ?_
  · exact passes_pure (by rw [hnone])
  · exact passes_items hsome (fun t ht w ws hend => (h t ht).passes_assignment hend) rfl
      (by decide)

theorem passes_call {left : Tree} {trees : List Tree} (h : ∀ t ∈ trees, t.Atomic)
    (hne : us ≠ []) :
    Passes (.of .openParen :: (listWords trees ++ .of .closeParen :: us))
      (postfixStep (assignment (below n)) left) us fun b =>
        b.bare = .node .call "" .none (left.bare :: trees.map Tree.bare) := by
  refine passes_eat_other (by decide) ?_
  refine passes_bind (passes_advance (by simp)) fun _ _ => ?_
  refine passes_bind (passes_arguments h) fun as has => ?_
  refine passes_bind (passes_holdingAll (passes_expect rfl hne)) fun _ _ => passes_pure ?_
  simp [has]

/-- What is behind an operand and belongs to it makes an operand with it. -/
theorem atomic_of_chain {t first : Tree} (w : Word) (ws : List Word)
    (hkind : t.kind.isLeaf = false) (hfirst : first.Atomic)
    (hw : w.kind = .dot ∨ w.kind = .openParen) (hwords : t.words = first.enclosed ++ w :: ws)
    (hstep : ∀ left : Tree, left.bare = first.bare → ∀ n us, us ≠ [] →
      Rereads (w :: (ws ++ us)) (postfixStep (assignment (below n)) left) us t) : t.Atomic := by
  refine atomic_of_assignmentBody hkind fun n us => ?_
  obtain ⟨v, vs, hvs, hv⟩ := hfirst.head
  have hread := hfirst.reread n (w :: (ws ++ .of .closeParen :: us)) (List.cons_ne_nil _ _)
  rw [hwords, List.append_assoc, List.cons_append]
  rw [hvs] at hread ⊢
  refine passes_assignmentBody rfl (passes_binary (by decide) ?_)
  refine passes_operand hv hread fun left hleft => ?_
  exact passes_postfixChain hw fun n => hstep left hleft n _ (List.cons_ne_nil _ _)

theorem atomic_member {object : Tree} {name : String} {span place : Span} (h : object.Atomic) :
    (Tree.node .getProp "" span [object, .node .propertyName name place []]).Atomic := by
  refine atomic_of_chain (.of .dot) [.name name] rfl h (.inl rfl) rfl ?_
  intro left hleft n us hne
  refine (passes_member hne).imp fun a ha => ?_
  rw [ha, hleft]
  simp

theorem atomic_call {callee : Tree} {trees : List Tree} {span : Span} (h : callee.Atomic)
    (htrees : ∀ t ∈ trees, t.Atomic) : (Tree.node .call "" span (callee :: trees)).Atomic := by
  refine atomic_of_chain (.of .openParen) (listWords trees ++ [.of .closeParen]) rfl h (.inr rfl)
    rfl ?_
  intro left hleft n us hne
  rw [List.append_assoc]
  refine (passes_call htrees hne).imp fun a ha => ?_
  rw [ha, hleft]
  simp

theorem isUnaryOperator_of_word {t op : Token} (h : t.word = op.word) :
    t.isUnaryOperator = op.isUnaryOperator := by
  have hkind : t.kind = op.kind := congrArg Word.kind h
  have htext : t.text = op.text := congrArg Word.text h
  rw [Token.isUnaryOperator, Token.isUnaryOperator, hkind, htext]

theorem atomic_unary {op : Token} {operand : Tree} {span : Span} (hop : op.isUnaryOperator)
    (hword : op.word = .prefixed op.text) (h : operand.Atomic) :
    (Tree.node .unary op.text span [operand]).Atomic := by
  refine atomic_of_assignmentBody rfl fun n us =>
    passes_assignmentBody rfl (passes_binary (by decide) ?_)
  change Rereads (.prefixed op.text :: (operand.enclosed ++ .of .closeParen :: us)) _ _ _
  obtain ⟨v, vs, hvs, hv⟩ := h.head
  rw [← hword]
  refine passes_current fun t ht => ?_
  rw [isUnaryOperator_of_word ht, hop]
  refine passes_bind (passes_advance (by simp)) fun token htoken => ?_
  have hoperand : ∀ n, Rereads (operand.enclosed ++ .of .closeParen :: us) (unary (below n))
      (.of .closeParen :: us) operand := by
    intro n
    have hread := h.reread n (.of .closeParen :: us) (List.cons_ne_nil _ _)
    rw [hvs] at hread ⊢
    exact passes_unary hv (by decide) (by decide) hread
  refine passes_bind (passes_nested hoperand) fun a ha => passes_pure ?_
  have htext : token.text = op.text := congrArg Word.text htoken
  simp [htext, ha]

theorem precedence_pos {op : String} {p : Nat} (h : precedence op = some p) : 0 < p := by
  unfold precedence at h
  split at h <;> cases h <;> decide

theorem passes_binaryStep {left : Tree} {op : Token} {right : Tree} (h : right.Atomic) :
    Passes (op.word :: (right.enclosed ++ .of .closeParen :: us)) (binaryStep (below n) left)
      (.of .closeParen :: us) fun b =>
        b.bare = .node .binary op.text .none [left.bare, right.bare] := by
  obtain ⟨v, vs, hvs, hv⟩ := h.head
  refine passes_bind (passes_advance (by simp)) fun token htoken => ?_
  have hread := h.reread n (.of .closeParen :: us) (List.cons_ne_nil _ _)
  rw [hvs] at hread ⊢
  have hright := passes_unary hv (by decide) (by decide) hread
  refine passes_bind (passes_binary (by decide) hright) fun a ha => passes_pure ?_
  have htext : token.text = op.text := congrArg Word.text htoken
  simp [htext, ha]

theorem atomic_binary {op : Token} {left right : Tree} {span : Span} (hop : op.kind = .operator)
    (hprecedence : (precedence op.text).isSome) (hleft : left.Atomic) (hright : right.Atomic) :
    (Tree.node .binary op.text span [left, right]).Atomic := by
  refine atomic_of_assignmentBody rfl fun n us => passes_assignmentBody rfl ?_
  have hword : op.word = ⟨.operator, op.text⟩ := by rw [Token.word, hop]
  have hwords : (Tree.node .binary op.text span [left, right]).words ++ .of .closeParen :: us =
      left.enclosed ++ op.word :: (right.enclosed ++ .of .closeParen :: us) := by
    rw [hword]
    exact List.append_assoc _ _ _
  obtain ⟨v, vs, hvs, hv⟩ := hleft.head
  have hread := hleft.reread n (op.word :: (right.enclosed ++ .of .closeParen :: us))
    (List.cons_ne_nil _ _)
  rw [hwords]
  rw [hvs] at hread ⊢
  refine passes_bind (passes_unary hv (by simp [hword]) (by simp [hword]) hread) fun a ha => ?_
  refine passes_current fun t ht => ?_
  have habove : (t.precedenceAbove 0).isSome := by
    have hkind : t.kind = op.kind := congrArg Word.kind ht
    have htext : t.text = op.text := congrArg Word.text ht
    obtain ⟨p, hp⟩ := Option.isSome_iff_exists.mp hprecedence
    simp [Token.precedenceAbove, hkind, hop, htext, hp, Option.filter, precedence_pos hp]
  rw [habove]
  cases n with
  | zero => exact passes_holding passes_tooDeeply
  | succ n =>
    refine passes_bind (passes_holding (passes_binaryStep hright)) fun b hb => ?_
    exact passes_binaryChain_end (by decide) (by rw [hb, ha]; simp)

theorem atomic_assign {target value : Tree} {span : Span}
    (hkind : target.kind = .name ∨ target.kind = .getProp) (htarget : target.Atomic)
    (hvalue : value.Atomic) : (Tree.node .assign "" span [target, value]).Atomic := by
  refine atomic_of_assignmentBody rfl fun n us => ?_
  have hwords : (Tree.node .assign "" span [target, value]).words ++ .of .closeParen :: us =
      target.enclosed ++ .of .equals :: (value.enclosed ++ .of .closeParen :: us) :=
    List.append_assoc _ _ _
  obtain ⟨v, vs, hvs, hv⟩ := htarget.head
  have hread := htarget.reread n (.of .equals :: (value.enclosed ++ .of .closeParen :: us))
    (List.cons_ne_nil _ _)
  rw [hwords]
  rw [hvs] at hread ⊢
  have hfirst := passes_unary hv (by decide) (by decide) hread
  refine passes_bind (passes_binary (by decide) hfirst) fun a ha => passes_isAt ?_
  rw [decide_eq_true (show (Word.of .equals).kind = .equals from rfl)]
  refine passes_holding ?_
  rw [if_pos (by simpa [Tree.kind_of_bare ha] using hkind)]
  refine passes_bind (passes_advance (by simp)) fun _ _ => ?_
  refine passes_bind (hvalue.passes_assignment rfl) fun b hb => passes_pure ?_
  simp [ha, hb]

end Expressions

/-- A statement is entered if there is a level left for it. -/
theorem passes_statement {ws us : List Word} {n : Nat} {Q : Tree → Prop}
    (h : ∀ n, Passes ws (statementBody (statement (below n)) (assignment (below n))) us Q) :
    Passes ws (statement (below n)) us Q :=
  passes_nested h

/-- What can be read as a statement. -/
structure Tree.Stated (t : Tree) : Prop where
  starts : ∃ v vs, t.words = v :: vs ∧ v.kind.isStart
  reread : ∀ n w us, w.kind ≠ .elseWord →
    Rereads (t.words ++ w :: us) (statement (below n)) (w :: us) t

theorem Tree.Stated.words_ne_nil {t : Tree} (h : t.Stated) : t.words ≠ [] := by
  obtain ⟨v, vs, hvs, -⟩ := h.starts
  rw [hvs]
  exact List.cons_ne_nil _ _

/-- A block of such statements. -/
def Tree.Braced (t : Tree) : Prop :=
  ∃ span body, t = .node .block "" span body ∧ ∀ s ∈ body, s.Stated

section Functions

variable {n : Nat} {w : Word} {us : List Word}

theorem Tree.Braced.passes_block {t : Tree} (h : t.Braced) (hne : us ≠ []) :
    Rereads (t.words ++ us) (block (statement (below n))) us t := by
  obtain ⟨span, body, rfl, hbody⟩ := h
  have hwords : (Tree.node .block "" span body).words ++ us =
      .of .openBrace :: (statementWords body ++ .of .closeBrace :: us) := by
    simp [Tree.words]
  have hlength : body.length < (statementWords body ++ .of .closeBrace :: us).length := by
    have := length_statementWords fun t ht => (hbody t ht).words_ne_nil
    simp only [List.length_append, List.length_cons]
    omega
  rw [hwords]
  refine passes_bind (passes_expect rfl (by simp)) fun _ _ => ?_
  refine passes_bind (passes_perToken (passes_upTo (fun t ht => (hbody t ht).starts)
    (fun t ht => (hbody t ht).reread n) (.inl rfl) hlength)) fun as has => ?_
  refine passes_bind (passes_holdingAll (passes_advance hne)) fun _ _ => passes_pure ?_
  simp [has]

/-- A block is read as a statement too, whatever stands behind it. -/
theorem Tree.Braced.passes_statement {t : Tree} (h : t.Braced) (hne : us ≠ []) :
    Rereads (t.words ++ us) (statement (below n)) us t := by
  refine Script.passes_statement fun n => ?_
  have hblock := h.passes_block (n := n) hne
  obtain ⟨span, body, rfl, -⟩ := h
  refine passes_current fun token htoken => ?_
  have hkind : token.kind = .openBrace := congrArg Word.kind htoken
  rw [hkind]
  exact hblock

theorem stated_of_braced {t : Tree} (h : t.Braced) : t.Stated where
  starts := by
    obtain ⟨span, body, rfl, -⟩ := h
    exact ⟨_, _, rfl, rfl⟩
  reread _ _ _ _ := h.passes_statement (List.cons_ne_nil _ _)

theorem Tree.Braced.passes_branch {t : Tree} (h : t.Braced) (hne : us ≠ []) :
    Rereads (t.words ++ us) (Script.branch (statement (below n))) us t := by
  refine passes_bind (h.passes_statement hne) fun a ha => passes_pure ?_
  obtain ⟨span, body, rfl, -⟩ := h
  have hkind : a.kind = .block := Tree.kind_of_bare ha
  rwa [if_pos hkind]

theorem passes_parameter {name : String} {span : Span} (hname : name ≠ "") (hne : us ≠ []) :
    Rereads ((Tree.node .name name span []).enclosed ++ us) parameter us
      (.node .name name span []) := by
  have hwords : (Tree.node .name name span []).enclosed = [.name name] := if_neg hname
  rw [hwords]
  refine passes_bind (passes_expect rfl hne) fun t ht => passes_pure ?_
  have htext : t.text = name := congrArg Word.text ht
  simp [htext]

/-- A list of names in parentheses. -/
def Tree.Listed (t : Tree) : Prop :=
  ∃ span names, t = .node .paramList "" span names ∧ ∀ m ∈ names, m.IsName

theorem Tree.Listed.passes_parameterList {t : Tree} (h : t.Listed) (hne : us ≠ []) :
    Rereads (t.words ++ us) parameterList us t := by
  obtain ⟨span, names, rfl, hnames⟩ := h
  have hwords : (Tree.node .paramList "" span names).words ++ us =
      .of .openParen :: (listWords names ++ .of .closeParen :: us) := by
    simp [Tree.words]
  rw [hwords]
  refine passes_bind (passes_expect rfl (by simp)) fun _ _ => ?_
  have hclosing : ∀ (opening : Token) (params : List Tree),
      params.map Tree.bare = names.map Tree.bare →
      Rereads (.of .closeParen :: us) (do
        let closing ← holdingAll params (expect .closeParen .closeParen)
        return .branch .paramList (opening.span.to closing.span) params) us
          (.node .paramList "" span names) := by
    intro opening params hparams
    refine passes_bind (passes_holdingAll (passes_expect rfl hne)) fun _ _ => passes_pure ?_
    simp [hparams]
  refine passes_isAt_items (fun m hm => ?_) (fun hnone => ?_) fun hsome => ?_
  · obtain ⟨name, place, rfl, hname⟩ := hnames m hm
    exact ⟨.name name, [], if_neg hname, by simp [Word.name]⟩
  · refine passes_bind (passes_pure (Q := fun params => params.map Tree.bare = names.map Tree.bare)
      (by rw [hnone])) fun params hparams => hclosing _ params hparams
  · refine passes_bind (passes_items hsome (fun m hm w ws _ => ?_) rfl (by decide))
      fun params hparams => hclosing _ params hparams
    obtain ⟨name, place, rfl, hname⟩ := hnames m hm
    exact passes_parameter hname (List.cons_ne_nil _ _)

/-- A function with a list of names and a block, which may have a name. -/
def Tree.Callable (t : Tree) : Prop :=
  ∃ span name place params body,
    t = .node .function "" span [.node .name name place [], params, body] ∧
      params.Listed ∧ body.Braced

theorem Tree.Listed.head {t : Tree} (h : t.Listed) : ∃ vs, t.words = .of .openParen :: vs := by
  obtain ⟨span, names, rfl, -⟩ := h
  exact ⟨_, rfl⟩

theorem passes_functionName {keyword : Token} {name : String} {place : Span}
    (hw : w.kind ≠ .identifier) :
    Rereads ((Tree.node .name name place []).words ++ w :: us) (functionName keyword) (w :: us)
      (.node .name name place []) := by
  by_cases hname : name = ""
  · subst hname
    refine passes_isAt ?_
    rw [decide_eq_false hw]
    exact passes_pure rfl
  · rw [show (Tree.node .name name place []).words = [.name name] from if_neg hname]
    refine passes_isAt (passes_bind (passes_advance (by simp)) fun t ht => passes_pure ?_)
    have htext : t.text = name := congrArg Word.text ht
    simp [htext]

theorem Tree.Callable.passes_function {t : Tree} (h : t.Callable) (hne : us ≠ []) :
    Rereads (t.words ++ us) (function (statement (below n))) us t := by
  obtain ⟨span, name, place, params, body, rfl, hparams, hbody⟩ := h
  obtain ⟨vs, hvs⟩ := hparams.head
  have hwords : (node .function "" span [.node .name name place [], params, body]).words ++ us =
      .of .function :: ((node .name name place []).words ++
        (params.words ++ (body.words ++ us))) := by
    simp [Tree.words]
  have hbehind : body.words ++ us ≠ [] := by simp [hne]
  rw [hwords]
  refine passes_bind (passes_advance (by simp [hvs])) fun keyword _ => ?_
  have hparameters := hparams.passes_parameterList hbehind
  rw [hvs] at hparameters ⊢
  refine passes_bind (passes_functionName (by decide)) fun called hcalled => passes_holding ?_
  refine passes_bind hparameters fun p hp => ?_
  refine passes_bind (passes_holding (hbody.passes_block hne)) fun b hb => passes_pure ?_
  simp [hcalled, hp, hb]

theorem Tree.Callable.head {t : Tree} (h : t.Callable) : ∃ vs, t.words = .of .function :: vs := by
  obtain ⟨span, name, place, params, body, rfl, -⟩ := h
  exact ⟨_, rfl⟩

theorem stated_of_callable {t : Tree} (h : t.Callable) : t.Stated where
  starts := by
    obtain ⟨vs, hvs⟩ := h.head
    exact ⟨_, vs, hvs, rfl⟩
  reread n w us _ := by
    refine passes_statement fun n => ?_
    have hfunction := h.passes_function (n := n) (List.cons_ne_nil w us)
    obtain ⟨vs, hvs⟩ := h.head
    rw [hvs] at hfunction ⊢
    refine passes_current fun token htoken => ?_
    have hkind : token.kind = .function := congrArg Word.kind htoken
    rw [hkind]
    exact hfunction

theorem atomic_of_callable {t : Tree} (h : t.Callable) : t.Atomic := by
  have hkind : t.kind.isLeaf = false := by
    obtain ⟨span, name, place, params, body, rfl, -⟩ := h
    rfl
  refine atomic_of_assignmentBody hkind fun n us =>
    passes_assignmentBody rfl (passes_binary (by decide) ?_)
  have hfunction := h.passes_function (n := n) (List.cons_ne_nil (.of .closeParen) us)
  obtain ⟨vs, hvs⟩ := h.head
  rw [hvs] at hfunction ⊢
  refine passes_unary (by decide) (by decide) (by decide) (passes_current fun token htoken => ?_)
  have hkind : token.kind = .function := congrArg Word.kind htoken
  rw [hkind]
  exact hfunction

end Functions

section Statements

variable {n : Nat} {v w : Word} {vs us : List Word}

/-- A statement can be told from its first word. -/
theorem stated_of {t : Tree} (hwords : t.words = v :: vs) (hv : v.kind.isStart)
    (h : ∀ n w us, w.kind ≠ .elseWord → Rereads (v :: (vs ++ w :: us))
      (statementBody (statement (below n)) (assignment (below n))) (w :: us) t) : t.Stated where
  starts := ⟨v, vs, hwords, hv⟩
  reread n w us hw := by
    rw [hwords]
    exact passes_statement fun n => h n w us hw

theorem passes_finish {span : Span} :
    Passes (.of .semicolon :: w :: us) (finish span) (w :: us) fun _ => True :=
  passes_isAt (passes_bind (passes_advance (List.cons_ne_nil _ _)) fun _ _ => passes_pure trivial)

/-- A name that may have a value. -/
def Tree.Declared (t : Tree) : Prop :=
  ∃ name span, name ≠ "" ∧ (t = .node .name name span [] ∨
    ∃ value : Tree, value.Atomic ∧ t = .node .name name span [value])

theorem Tree.Declared.passes_declarator {t : Tree} (h : t.Declared) (hend : w.kind.isEnd) :
    Rereads (t.enclosed ++ w :: us) (declarator (assignment (below n))) (w :: us) t := by
  obtain ⟨-, -, -, hequals⟩ := TokenKind.ne_of_isEnd hend
  obtain ⟨name, span, hname, rfl | ⟨value, hvalue, rfl⟩⟩ := h
  · rw [show (node .name name span []).enclosed = [.name name] from if_neg hname]
    refine passes_bind (passes_expect rfl (by simp)) fun token htoken => passes_holding ?_
    refine passes_eat_other hequals (passes_pure ?_)
    have htext : token.text = name := congrArg Word.text htoken
    simp [htext]
  · change Rereads (.name name :: .of .equals :: (value.enclosed ++ w :: us)) _ _ _
    refine passes_bind (passes_expect rfl (by simp)) fun token htoken => passes_holding ?_
    refine passes_eat rfl (by simp) ?_
    refine passes_bind (hvalue.passes_assignment hend) fun a ha => passes_pure ?_
    have htext : token.text = name := congrArg Word.text htoken
    simp [htext, ha]

theorem stated_var {names : List Tree} {span : Span} (hne : names ≠ [])
    (h : ∀ t ∈ names, t.Declared) : (Tree.node .var "" span names).Stated := by
  refine stated_of (v := .of .var) rfl rfl fun n w us _ => ?_
  rw [List.append_assoc]
  refine passes_current fun token htoken => ?_
  have hkind : token.kind = .var := congrArg Word.kind htoken
  rw [hkind]
  refine passes_bind (passes_advance (by simp)) fun _ _ => ?_
  refine passes_bind (passes_items hne (fun t ht w us hend => (h t ht).passes_declarator hend)
    (w := .of .semicolon) rfl (by decide)) fun as has => ?_
  refine passes_bind (passes_holdingAll passes_finish) fun _ _ => passes_pure ?_
  simp [has]

theorem stated_empty {span : Span} : (Tree.node .empty "" span []).Stated := by
  refine stated_of (v := .of .semicolon) rfl rfl fun n w us _ => ?_
  refine passes_current fun token htoken => ?_
  have hkind : token.kind = .semicolon := congrArg Word.kind htoken
  rw [hkind]
  exact passes_bind (passes_advance (by simp)) fun _ _ => passes_pure rfl

theorem stated_ret {values : List Tree} {span : Span} (hvalues : values.length ≤ 1)
    (h : ∀ t ∈ values, t.Atomic) : (Tree.node .ret "" span values).Stated := by
  refine stated_of (v := .of .ret) rfl rfl fun n w us _ => ?_
  rw [List.append_assoc]
  refine passes_current fun token htoken => ?_
  have hkind : token.kind = .ret := congrArg Word.kind htoken
  rw [hkind]
  refine passes_bind (passes_advance (by simp)) fun _ _ => ?_
  match values with
  | [] =>
    refine passes_current fun token htoken => ?_
    have hkind : token.kind = .semicolon := congrArg Word.kind htoken
    rw [if_pos (by simp [hkind])]
    exact passes_bind passes_finish fun _ _ => passes_pure rfl
  | [value] =>
    have hvalue := h value List.mem_cons_self
    obtain ⟨v, vs, hvs, hv⟩ := hvalue.head
    have hread : Rereads (value.enclosed ++ .of .semicolon :: w :: us) (assignment (below n))
        (.of .semicolon :: w :: us) value := hvalue.passes_assignment rfl
    change Passes (value.enclosed ++ .of .semicolon :: w :: us) _ _ _
    rw [hvs] at hread ⊢
    refine passes_current fun token htoken => ?_
    have hkind : token.kind = v.kind := congrArg Word.kind htoken
    obtain ⟨-, hsemicolon, hclosing, hend⟩ := TokenKind.ne_of_isOperand hv
    rw [if_neg (by simp [hkind, hsemicolon, hclosing, hend])]
    refine passes_bind hread fun a ha => ?_
    refine passes_bind (passes_holding passes_finish) fun _ _ => passes_pure ?_
    simp [ha]

theorem passes_exprStatement {value : Tree} {span : Span} (h : value.Atomic) :
    Rereads (value.enclosed ++ .of .semicolon :: w :: us) (exprStatement (assignment (below n)))
      (w :: us) (.node .exprResult "" span [value]) := by
  refine passes_bind (h.passes_assignment rfl) fun a ha => ?_
  refine passes_bind (passes_holding passes_finish) fun _ _ => passes_pure ?_
  simp [ha]

/-- A leaf with a semicolon behind it is no label, and parentheses start no other statement. -/
theorem stated_exprResult {value : Tree} {span : Span} (h : value.Atomic) :
    (Tree.node .exprResult "" span [value]).Stated := by
  have hread : ∀ n w us, Rereads (value.enclosed ++ .of .semicolon :: w :: us)
      (exprStatement (assignment (below n))) (w :: us) (.node .exprResult "" span [value]) :=
    fun n w us => passes_exprStatement h
  have hwords : (Tree.node .exprResult "" span [value]).words =
      value.enclosed ++ [.of .semicolon] := rfl
  rcases h.opens with ⟨v, hv, hleaf⟩ | ⟨vs, hvs⟩
  · rw [hv] at hread hwords
    refine stated_of hwords ?_ fun n w us _ => passes_current fun token htoken => ?_
    · cases hkind : v.kind <;> rw [hkind] at hleaf <;> first | rfl | cases hleaf
    · have hkind : token.kind = v.kind := congrArg Word.kind htoken
      rw [hkind]
      cases hkind : v.kind with
      | identifier => exact passes_following (hread n w us)
      | _ =>
        first
        | exact hread n w us
        | rw [hkind] at hleaf
          cases hleaf
  · rw [hvs, List.cons_append] at hwords
    simp only [hvs, List.cons_append] at hread
    refine stated_of hwords rfl fun n w us _ => passes_current fun token htoken => ?_
    have hkind : token.kind = .openParen := congrArg Word.kind htoken
    rw [hkind, List.append_assoc]
    exact hread n w us

/-- The words of a condition and of what is done if it holds. -/
theorem stated_if {t condition first : Tree} (ws : List Word)
    (hwords : t.words = .of .ifWord :: .of .openParen ::
      (condition.enclosed ++ .of .closeParen :: (first.words ++ ws)))
    (hcondition : condition.Atomic) (hfirst : first.Braced)
    (hrest : ∀ (n : Nat) (w : Word) (us : List Word), w.kind ≠ .elseWord →
      ∀ (keyword : Token) (c f : Tree), c.bare = condition.bare → f.bare = first.bare →
      Rereads (ws ++ w :: us) (do
        if ← eat .elseWord then
          let second ← branch (statement (below n))
          return .branch .ifElse (keyword.span.to second.span) [c, f, second]
        else
          return .branch .ifElse (keyword.span.to f.span) [c, f]) (w :: us) t) : t.Stated := by
  refine stated_of hwords rfl fun n w us hw => passes_current fun token htoken => ?_
  have hkind : token.kind = .ifWord := congrArg Word.kind htoken
  have happend : condition.enclosed ++ .of .closeParen :: (first.words ++ ws) ++ w :: us =
      condition.enclosed ++ .of .closeParen :: (first.words ++ (ws ++ w :: us)) := by
    simp
  rw [hkind, List.cons_append, happend]
  refine passes_bind (passes_advance (by simp)) fun keyword _ => ?_
  refine passes_bind (passes_expect rfl (by simp)) fun _ _ => ?_
  refine passes_bind (hcondition.passes_assignment rfl) fun c hc => passes_holding ?_
  refine passes_bind (passes_expect rfl (by simp)) fun _ _ => ?_
  refine passes_bind (hfirst.passes_branch (by simp)) fun f hf => passes_holding ?_
  exact hrest n w us hw keyword c f hc hf

theorem stated_ifThen {condition first : Tree} {span : Span} (hcondition : condition.Atomic)
    (hfirst : first.Braced) : (Tree.node .ifElse "" span [condition, first]).Stated := by
  refine stated_if [] ?_ hcondition hfirst fun n w us hw keyword c f hc hf => ?_
  · rw [List.append_nil]
    rfl
  · exact passes_eat_other hw (passes_pure (by simp [hc, hf]))

theorem stated_ifElse {condition first second : Tree} {span : Span}
    (hcondition : condition.Atomic) (hfirst : first.Braced) (hsecond : second.Braced) :
    (Tree.node .ifElse "" span [condition, first, second]).Stated := by
  refine stated_if (.of .elseWord :: second.words) rfl hcondition hfirst
    fun n w us hw keyword c f hc hf => ?_
  refine passes_eat rfl (by simp) ?_
  refine passes_bind (hsecond.passes_branch (by simp)) fun a ha => passes_pure ?_
  simp [hc, hf, ha]

theorem stated_label {name : String} {place span : Span} {body : Tree} (hname : name ≠ "")
    (h : body.Stated) : (Tree.node .label "" span [.node .name name place [], body]).Stated := by
  have hwords : (Tree.node .label "" span [.node .name name place [], body]).words =
      .name name :: .of .colon :: body.words := by
    simp [Tree.words, hname]
  refine stated_of hwords rfl fun n w us hw => ?_
  refine passes_current fun token htoken => ?_
  have hkind : token.kind = .identifier := congrArg Word.kind htoken
  rw [hkind]
  refine passes_following ?_
  refine passes_bind (passes_advance (by simp)) fun label hlabel => passes_holding ?_
  refine passes_bind (passes_expect rfl (by simp)) fun _ _ => ?_
  refine passes_bind (h.reread n w us hw) fun a ha => passes_pure ?_
  have htext : label.text = name := congrArg Word.text hlabel
  simp [htext, ha]

theorem passes_jumpStatement {kind : NodeKind} {span : Span} {labels : List Tree}
    (hlength : labels.length ≤ 1) (hlabels : ∀ m ∈ labels, m.IsName) :
    Rereads (v :: (listWords labels ++ .of .semicolon :: w :: us)) (jumpStatement kind) (w :: us)
      (.node kind "" span labels) := by
  refine passes_bind (passes_advance (by simp)) fun _ _ => ?_
  match labels with
  | [] => exact passes_isAt (passes_bind passes_finish fun _ _ => passes_pure rfl)
  | [label] =>
    obtain ⟨name, place, rfl, hname⟩ := hlabels label List.mem_cons_self
    have hwords : listWords [.node .name name place []] = [.name name] := if_neg hname
    rw [hwords]
    refine passes_isAt (passes_bind (passes_advance (by simp)) fun label hlabel => ?_)
    refine passes_bind (passes_holding passes_finish) fun _ _ => passes_pure ?_
    have htext : label.text = name := congrArg Word.text hlabel
    simp [htext]

theorem words_jump {word : TokenKind} {kind : NodeKind} (hkind : word.jumpKind = some kind)
    (span : Span) (labels : List Tree) : (Tree.node kind "" span labels).words =
      .of word :: (listWords labels ++ [.of .semicolon]) := by
  cases word <;> cases hkind <;> rfl

theorem stated_jump {word : TokenKind} {kind : NodeKind} {span : Span} {labels : List Tree}
    (hkind : word.jumpKind = some kind) (hlength : labels.length ≤ 1)
    (hlabels : ∀ m ∈ labels, m.IsName) : (Tree.node kind "" span labels).Stated := by
  have hstart : word.isStart := by cases word <;> cases hkind <;> rfl
  refine stated_of (words_jump hkind span labels) hstart fun n w us _ =>
    passes_current fun token htoken => ?_
  have htokenKind : token.kind = word := congrArg Word.kind htoken
  rw [htokenKind, List.append_assoc]
  cases word <;> cases hkind <;> exact passes_jumpStatement hlength hlabels

end Statements

end RefCheck.Script
