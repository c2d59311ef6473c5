import RefCheck.Proofs.Script.Scanning

/-!
# What the parser keeps

The marks of a row of tokens are its names and values, its operators and the words `function` that
no name follows; the marks of a tree are what its nodes have of these. A tree that is read from
tokens has their marks, in their order (`Derives.marked`), so the parser loses no token that
matters and makes up none.
-/

namespace RefCheck.Script

open RefCheck.Text

mutual

/-- All nodes of a tree, each before those below it. -/
def Tree.nodes : Tree → List Tree
  | .node kind text span children => .node kind text span children :: forestNodes children

def forestNodes : List Tree → List Tree
  | [] => []
  | t :: rest => t.nodes ++ forestNodes rest

end

namespace Tree

/-- Whether a node is a name without a text. -/
def isUnnamed (t : Tree) : Bool := t.kind = .name && t.text = ""

/-- The token that a node was made of, if it was one. -/
def token? (t : Tree) : Option Token :=
  if t.isUnnamed then none else t.kind.tokenKind.map fun kind => ⟨kind, t.text, t.span⟩

/-- The name of a function that is written without one. -/
def emptyName? (t : Tree) : Option Tree :=
  if t.kind = .function then t.children.head?.filter isUnnamed else none

/-- Where the word `function` stands that such a function starts with. -/
def bareKeyword? (t : Tree) : Option Span :=
  t.emptyName?.map fun name => ⟨t.span.start, name.span.start⟩

/-- The text of an operator. -/
def operator? (t : Tree) : Option String :=
  if t.kind = .binary ∨ t.kind = .unary then some t.text else none

end Tree

/-- Whether a token is a name or stands for a value. -/
def Token.isLeaf (t : Token) : Bool := t.kind.leafKind.isSome

def Token.operator? (t : Token) : Option String :=
  if t.kind = .operator ∨ t.kind = .bang ∨ t.kind = .typeof then some t.text else none

/-- Whether the row starts with a name. -/
def startsWithName : List Token → Bool
  | [] => false
  | t :: _ => t.kind = .identifier

/-- Where the words `function` stand that no name follows. -/
def bareKeywords : List Token → List Span
  | [] => []
  | t :: rest =>
    if t.kind = .function ∧ startsWithName rest = false then t.span :: bareKeywords rest
    else bareKeywords rest

/-- What matters of tokens and nodes. -/
inductive Mark
  | leaf (token : Token)
  | bareKeyword (span : Span)
  | operator (text : String)

namespace Mark

def leaf? : Mark → Option Token
  | leaf token => some token
  | _ => none

def bareKeyword? : Mark → Option Span
  | bareKeyword span => some span
  | _ => none

def operator? : Mark → Option String
  | operator text => some text
  | _ => none

end Mark

/-- The mark of a token in front of others. -/
def Token.marks (t : Token) (rest : List Token) : List Mark :=
  if t.isLeaf then [.leaf t]
  else match t.kind with
    | .function => if startsWithName rest then [] else [.bareKeyword t.span]
    | .operator | .bang | .typeof => [.operator t.text]
    | _ => []

def tokenMarks : List Token → List Mark
  | [] => []
  | t :: rest => t.marks rest ++ tokenMarks rest

/-- The marks of a node alone, unless it is a binary operator. -/
def Tree.ownMarks (t : Tree) : List Mark :=
  t.token?.toList.map .leaf ++ t.bareKeyword?.toList.map .bareKeyword ++
    if t.kind = .unary then [.operator t.text] else []

mutual

/-- The marks of a tree in the order of the source: a binary operator stands behind its left
operand, everything else before what is below it. -/
def Tree.marks : Tree → List Mark
  | .node kind text span children =>
    if kind = .binary then infixMarks (.operator text) children
    else (Tree.node kind text span children).ownMarks ++ forestMarks children

def infixMarks (mark : Mark) : List Tree → List Mark
  | [] => [mark]
  | left :: rest => left.marks ++ mark :: forestMarks rest

def forestMarks : List Tree → List Mark
  | [] => []
  | t :: rest => t.marks ++ forestMarks rest

end

theorem leaf?_marks (t : Token) (rest : List Token) :
    (t.marks rest).filterMap Mark.leaf? = if t.isLeaf then [t] else [] := by
  rw [Token.marks]
  split
  · rfl
  · split
    · split <;> rfl
    all_goals rfl

theorem bareKeyword?_marks (t : Token) (rest : List Token) :
    (t.marks rest).filterMap Mark.bareKeyword? =
      if t.kind = .function ∧ startsWithName rest = false then [t.span] else [] := by
  rw [Token.marks]
  cases h : t.kind with
  | function => cases hnext : startsWithName rest <;> simp [Token.isLeaf, h, TokenKind.leafKind,
      Mark.bareKeyword?]
  | _ => simp [Token.isLeaf, h, TokenKind.leafKind, Mark.bareKeyword?]

theorem operator?_marks (t : Token) (rest : List Token) :
    (t.marks rest).filterMap Mark.operator? = t.operator?.toList := by
  rw [Token.marks, Token.operator?]
  cases h : t.kind with
  | function => cases hnext : startsWithName rest <;> simp [Token.isLeaf, h, TokenKind.leafKind,
      Mark.operator?]
  | _ => simp [Token.isLeaf, h, TokenKind.leafKind, Mark.operator?]

theorem leaf?_tokenMarks (ts : List Token) :
    (tokenMarks ts).filterMap Mark.leaf? = ts.filter Token.isLeaf := by
  induction ts with
  | nil => rfl
  | cons t rest ih =>
    rw [tokenMarks, List.filterMap_append, ih, leaf?_marks, List.filter_cons]
    split <;> rfl

theorem bareKeyword?_tokenMarks (ts : List Token) :
    (tokenMarks ts).filterMap Mark.bareKeyword? = bareKeywords ts := by
  induction ts with
  | nil => rfl
  | cons t rest ih =>
    rw [tokenMarks, List.filterMap_append, ih, bareKeyword?_marks, bareKeywords]
    split <;> rfl

theorem operator?_tokenMarks (ts : List Token) :
    (tokenMarks ts).filterMap Mark.operator? = ts.filterMap Token.operator? := by
  induction ts with
  | nil => rfl
  | cons t rest ih =>
    rw [tokenMarks, List.filterMap_append, ih, operator?_marks, List.filterMap_cons]
    cases t.operator? <;> rfl

/-- The marks of a node that stand next to each other. -/
def Tree.headMarks (t : Tree) : List Mark :=
  if t.kind = .binary then [.operator t.text] else t.ownMarks

theorem perm_infixMarks (mark : Mark) (trees : List Tree) :
    (infixMarks mark trees).Perm (mark :: forestMarks trees) := by
  cases trees with
  | nil => exact List.Perm.refl _
  | cons left rest => exact List.perm_middle

/-- The marks of a tree are those of its nodes. -/
theorem perm_marks (t : Tree) : t.marks.Perm (t.nodes.flatMap Tree.headMarks) := by
  induction t with
  | node kind text span children ih =>
    have hforest : ∀ trees : List Tree, (∀ t ∈ trees, t ∈ children) →
        (forestMarks trees).Perm ((forestNodes trees).flatMap Tree.headMarks) := by
      intro trees htrees
      induction trees with
      | nil => exact List.Perm.refl _
      | cons t rest ihrest =>
        obtain ⟨ht, hrest⟩ := List.forall_mem_cons.mp htrees
        rw [forestMarks, forestNodes, List.flatMap_append]
        exact (ih t ht).append (ihrest hrest)
    rw [Tree.nodes, List.flatMap_cons, Tree.marks, Tree.headMarks, Tree.kind_node, Tree.text_node]
    by_cases h : kind = .binary
    · rw [if_pos h, if_pos h]
      exact (perm_infixMarks _ _).trans ((hforest children fun _ => id).cons _)
    · rw [if_neg h, if_neg h]
      exact (hforest children fun _ => id).append_left _

/-- Apart from operators they come in the order of the nodes. -/
theorem filterMap_marks {β : Type} {read : Mark → Option β}
    (hread : ∀ text, read (.operator text) = none) (t : Tree) :
    t.marks.filterMap read = (t.nodes.flatMap Tree.headMarks).filterMap read := by
  induction t with
  | node kind text span children ih =>
    have hforest : ∀ trees : List Tree, (∀ t ∈ trees, t ∈ children) →
        (forestMarks trees).filterMap read =
          ((forestNodes trees).flatMap Tree.headMarks).filterMap read := by
      intro trees htrees
      induction trees with
      | nil => rfl
      | cons t rest ihrest =>
        obtain ⟨ht, hrest⟩ := List.forall_mem_cons.mp htrees
        rw [forestMarks, forestNodes, List.filterMap_append, List.flatMap_append,
          List.filterMap_append, ih t ht, ihrest hrest]
    have hinfix : ∀ trees : List Tree, (infixMarks (.operator text) trees).filterMap read =
        (forestMarks trees).filterMap read := by
      intro trees
      cases trees <;> simp [infixMarks, forestMarks, hread]
    rw [Tree.nodes, List.flatMap_cons, Tree.marks, Tree.headMarks, Tree.kind_node, Tree.text_node,
      List.filterMap_append, ← hforest children fun _ => id]
    by_cases h : kind = .binary
    · rw [if_pos h, if_pos h, hinfix, List.filterMap_cons, hread]
      rfl
    · rw [if_neg h, if_neg h, List.filterMap_append]

/-- What is read off the marks of each node can be read off the nodes. -/
theorem filterMap_headMarks {β : Type} {read : Mark → Option β} {read' : Tree → Option β}
    (h : ∀ t : Tree, t.headMarks.filterMap read = (read' t).toList) (trees : List Tree) :
    (trees.flatMap Tree.headMarks).filterMap read = trees.filterMap read' := by
  rw [List.filterMap_flatMap, List.filterMap_eq_flatMap_toList]
  exact congrArg (List.flatMap · trees) (funext h)

theorem leaf?_headMarks (t : Tree) : t.headMarks.filterMap Mark.leaf? = t.token?.toList := by
  by_cases h : t.kind = .binary
  · simp [Tree.headMarks, h, Mark.leaf?, Tree.token?, NodeKind.tokenKind]
  · rw [Tree.headMarks, if_neg h, Tree.ownMarks]
    cases t.token? <;> cases t.bareKeyword? <;> by_cases hunary : t.kind = .unary <;>
      simp [List.filterMap_cons, Mark.leaf?, hunary]

theorem bareKeyword?_headMarks (t : Tree) :
    t.headMarks.filterMap Mark.bareKeyword? = t.bareKeyword?.toList := by
  by_cases h : t.kind = .binary
  · simp [Tree.headMarks, h, Mark.bareKeyword?, Tree.bareKeyword?, Tree.emptyName?]
  · rw [Tree.headMarks, if_neg h, Tree.ownMarks]
    cases t.token? <;> cases t.bareKeyword? <;> by_cases hunary : t.kind = .unary <;>
      simp [List.filterMap_cons, Mark.bareKeyword?, hunary]

theorem operator?_headMarks (t : Tree) :
    t.headMarks.filterMap Mark.operator? = t.operator?.toList := by
  by_cases h : t.kind = .binary
  · simp [Tree.headMarks, h, Mark.operator?, Tree.operator?]
  · rw [Tree.headMarks, if_neg h, Tree.ownMarks, Tree.operator?]
    cases t.token? <;> cases t.bareKeyword? <;> by_cases hunary : t.kind = .unary <;>
      simp [List.filterMap_cons, Mark.operator?, h, hunary]

/-- Tokens that start one after the other, and whose names have a text. -/
structure Orderly (ts : List Token) : Prop where
  ascending : Ascending ts
  named : ∀ t ∈ ts, t.kind = .identifier → t.text ≠ ""

namespace Orderly

variable {ts us : List Token} {t : Token}

theorem left (h : Orderly (ts ++ us)) : Orderly ts :=
  ⟨(List.pairwise_append.mp h.ascending).1, fun t ht => h.named t (List.mem_append_left _ ht)⟩

theorem right (h : Orderly (ts ++ us)) : Orderly us :=
  ⟨(List.pairwise_append.mp h.ascending).2.1, fun t ht => h.named t (List.mem_append_right _ ht)⟩

theorem tail (h : Orderly (t :: ts)) : Orderly ts := @right [t] ts h

theorem start_le (h : Orderly (t :: ts)) : ∀ u ∈ ts, t.span.start ≤ u.span.start :=
  (List.pairwise_cons.mp h.ascending).1

theorem name (h : Orderly (t :: ts)) (hkind : t.kind = .identifier) : t.text ≠ "" :=
  h.named t List.mem_cons_self hkind

end Orderly

/-- The tokens that have no marks. -/
def TokenKind.isSilent : TokenKind → Bool
  | identifier | number | string | this | null | trueWord | falseWord | function | typeof
  | operator | bang => false
  | _ => true

/-- The nodes that have no marks of their own. -/
def NodeKind.isPlain : NodeKind → Bool
  | name | propertyName | number | string | this | null | trueValue | falseValue | function
  | binary | unary => false
  | _ => true

theorem Token.isLeaf_of_tokenKind {t : Token} {kind : NodeKind}
    (h : kind.tokenKind = some t.kind) : t.isLeaf := by
  obtain ⟨token, text, span⟩ := t
  cases kind <;> cases h <;> rfl

theorem TokenKind.silent_of_jumpKind {word : TokenKind} {kind : NodeKind}
    (h : word.jumpKind = some kind) : word.isSilent ∧ kind.isPlain := by
  cases word <;> cases h <;> exact ⟨rfl, rfl⟩

theorem TokenKind.jumpKind_ne {word : TokenKind} {kind : NodeKind}
    (h : word.jumpKind = some kind) : kind ≠ .name ∧ kind ≠ .function ∧ kind ≠ .var := by
  cases word <;> cases h <;> decide

theorem Token.operator_of_isUnaryOperator {op : Token} (h : op.isUnaryOperator) :
    op.kind = .operator ∨ op.kind = .bang ∨ op.kind = .typeof := by
  rw [Token.isUnaryOperator] at h
  split at h
  · next hkind => exact .inr (.inl hkind)
  · next hkind => exact .inr (.inr hkind)
  · next hkind => exact .inl hkind
  · cases h

section Marks

variable {t : Token} {rest : List Token} {kind : NodeKind} {text : String} {span : Span}
  {children : List Tree}

theorem tokenMarks_silent (h : t.kind.isSilent) : tokenMarks (t :: rest) = tokenMarks rest := by
  rw [tokenMarks, Token.marks, Token.isLeaf]
  cases hkind : t.kind <;> rw [hkind] at h <;> first | rfl | cases h

theorem tokenMarks_leaf (h : t.isLeaf) : tokenMarks (t :: rest) = .leaf t :: tokenMarks rest := by
  rw [tokenMarks, Token.marks, if_pos h]
  rfl

theorem tokenMarks_operator (h : t.kind = .operator ∨ t.kind = .bang ∨ t.kind = .typeof) :
    tokenMarks (t :: rest) = .operator t.text :: tokenMarks rest := by
  rw [tokenMarks, Token.marks, Token.isLeaf]
  rcases h with h | h | h <;> rw [h] <;> rfl

theorem tokenMarks_named (h : t.kind = .function) (hnext : startsWithName rest = true) :
    tokenMarks (t :: rest) = tokenMarks rest := by
  rw [tokenMarks, Token.marks, Token.isLeaf, h, hnext]
  rfl

theorem tokenMarks_unnamed (h : t.kind = .function) (hnext : startsWithName rest = false) :
    tokenMarks (t :: rest) = .bareKeyword t.span :: tokenMarks rest := by
  rw [tokenMarks, Token.marks, Token.isLeaf, h, hnext]
  rfl

theorem forestMarks_append (us vs : List Tree) :
    forestMarks (us ++ vs) = forestMarks us ++ forestMarks vs := by
  induction us with
  | nil => rfl
  | cons t rest ih => rw [List.cons_append, forestMarks, forestMarks, ih, List.append_assoc]

theorem forestMarks_singleton (t : Tree) : forestMarks [t] = t.marks := List.append_nil _

/-- The marks of a node that has none of its own are those below it. -/
theorem marks_plain (h : kind.isPlain) :
    (Tree.node kind text span children).marks = forestMarks children := by
  cases kind <;> first
    | rfl
    | cases h

theorem marks_leaf (htoken : kind.tokenKind = some t.kind)
    (hname : t.kind = .identifier → t.text ≠ "") :
    (Tree.node kind t.text t.span children).marks = .leaf t :: forestMarks children := by
  have hnamed : (Tree.node kind t.text t.span children).isUnnamed = false := by
    by_cases h : kind = .name
    · subst h
      have htext := hname (Option.some.inj htoken).symm
      simp [Tree.isUnnamed, htext]
    · simp [Tree.isUnnamed, h]
  have hown : (Tree.node kind t.text t.span children).ownMarks = [.leaf t] := by
    rw [Tree.ownMarks, Tree.token?, hnamed]
    cases kind <;> first
      | cases htoken
      | (rw [Tree.kind_node, htoken]
         rfl)
  have hkind : kind ≠ .binary := by
    rintro rfl
    cases htoken
  rw [Tree.marks, if_neg hkind, hown]
  rfl

/-- A function with a name has no mark of its own. -/
theorem marks_function {name : String} {place : Span} (hname : name ≠ "") :
    (Tree.node .function text span (.node .name name place [] :: children)).marks =
      forestMarks (.node .name name place [] :: children) := by
  have hown : (Tree.node .function text span (.node .name name place [] :: children)).bareKeyword? =
      none := by
    simp [Tree.bareKeyword?, Tree.emptyName?, Tree.isUnnamed, hname]
  rw [Tree.marks, if_neg nofun, Tree.ownMarks, hown]
  rfl

theorem marks_unnamed {start stop : Nat} :
    (Tree.node .function text ⟨start, stop⟩ (.node .name "" span [] :: children)).marks =
      .bareKeyword ⟨start, span.start⟩ :: forestMarks children := rfl

theorem marks_unary :
    (Tree.node .unary text span children).marks = .operator text :: forestMarks children := rfl

theorem marks_binary {left : Tree} :
    (Tree.node .binary text span (left :: children)).marks =
      left.marks ++ .operator text :: forestMarks children := rfl

end Marks

/-- A block starts where its first token does or later. -/
theorem Derives.block_start {bs : List Token} {body : Tree} (h : Derives .block bs [body])
    {n : Nat} (hbs : ∀ t ∈ bs, n ≤ t.span.start) : n ≤ body.span.start := by
  cases h with
  | @block ts _ opening closing _ _ _ =>
    have hopening := hbs opening List.mem_cons_self
    have hclosing := hbs closing (by simp)
    exact Nat.le_min.mpr ⟨hopening, hclosing⟩

/-- Parameters start with a parenthesis. -/
theorem Derives.startsWithName_parameters {ps : List Token} {trees : List Tree}
    (h : Derives .parameters ps trees) (more : List Token) :
    startsWithName (ps ++ more) = false := by
  cases h with
  | noParameters hopening | parameters hopening =>
    exact decide_eq_false (by rw [hopening]; nofun)

/-- Trees have the marks of the tokens that they are read from, whatever follows these. -/
def Marked (ts : List Token) (trees : List Tree) : Prop :=
  ∀ more, tokenMarks (ts ++ more) = forestMarks trees ++ tokenMarks more

namespace Marked

variable {ts us fs : List Token} {trees others : List Tree} {t : Token} {kind : NodeKind}
  {token other : TokenKind} {text : String} {span ending : Span}

theorem nil : Marked [] [] := fun _ => rfl

theorem append (hts : Marked ts trees) (hus : Marked us others) :
    Marked (ts ++ us) (trees ++ others) := by
  intro more
  rw [List.append_assoc, hts, hus, forestMarks_append, List.append_assoc]

/-- A token without a mark may stand in front. -/
theorem after (h : Marked ts trees) (ht : t.kind = token) (hsilent : token.isSilent) :
    Marked (t :: ts) trees := by
  intro more
  rw [List.cons_append, tokenMarks_silent (ht ▸ hsilent), h]

/-- And behind. -/
theorem before (h : Marked ts trees) (ht : t.kind = token) (hsilent : token.isSilent) :
    Marked (ts ++ [t]) trees := by
  simpa only [List.append_nil] using h.append (nil.after ht hsilent)

theorem between {opening closing : Token} (h : Marked ts trees) (hopening : opening.kind = token)
    (hclosing : closing.kind = other) (hsilent : token.isSilent ∧ other.isSilent) :
    Marked (opening :: (ts ++ [closing])) trees :=
  (h.before hclosing hsilent.2).after hopening hsilent.1

/-- The condition of a statement is in parentheses and has something behind it. -/
theorem condition {keyword opening closing : Token} (h : Marked ts trees)
    (hkeyword : keyword.kind = .ifWord) (hopening : opening.kind = .openParen)
    (hclosing : closing.kind = .closeParen) (hus : Marked us others) :
    Marked (keyword :: opening :: (ts ++ closing :: us)) (trees ++ others) :=
  ((h.append (hus.after hclosing rfl)).after hopening rfl).after hkeyword rfl

theorem finished (h : Marked ts trees) (hfinish : Finish span fs ending) :
    Marked (ts ++ fs) trees := by
  cases hfinish with
  | without => simpa only [List.append_nil] using h
  | semicolon ht => exact h.before ht rfl

theorem plain (h : Marked ts trees) (hkind : kind.isPlain) :
    Marked ts [.node kind text span trees] := by
  intro more
  rw [h, forestMarks_singleton, marks_plain hkind]

theorem leaf (h : Marked ts trees) (htoken : kind.tokenKind = some t.kind)
    (hname : t.kind = .identifier → t.text ≠ "") :
    Marked (t :: ts) [.node kind t.text t.span trees] := by
  intro more
  rw [List.cons_append, tokenMarks_leaf (Token.isLeaf_of_tokenKind htoken), h,
    forestMarks_singleton, marks_leaf htoken hname]
  rfl

theorem name (h : Marked ts trees) (ht : t.kind = .identifier) (htext : t.text ≠ "") :
    Marked (t :: ts) [.node .name t.text t.span trees] :=
  h.leaf (congrArg some ht.symm) fun _ => htext

/-- The keyword of a function with a name has no mark. -/
theorem function {keyword : Token} (h : Marked ts trees) (hkeyword : keyword.kind = .function)
    (ht : t.kind = .identifier) (htext : t.text ≠ "") :
    Marked (keyword :: t :: ts)
      [.node .function text span (.node .name t.text t.span [] :: trees)] := by
  intro more
  have hnext : startsWithName (t :: ts ++ more) = true := decide_eq_true ht
  have hbelow : Marked (t :: ts) (.node .name t.text t.span [] :: trees) :=
    (nil.name ht htext).append h
  rw [List.cons_append, tokenMarks_named hkeyword hnext, hbelow, forestMarks_singleton,
    marks_function htext]

/-- If the name is missing, the keyword has the mark that the empty name has. -/
theorem unnamed {keyword : Token} (h : Marked ts trees) (hkeyword : keyword.kind = .function)
    (hnext : ∀ more, startsWithName (ts ++ more) = false)
    (hspan : keyword.span.start ≤ span.start) :
    Marked (keyword :: ts) [.node .function text (keyword.span.to span)
      (.node .name "" ⟨keyword.span.stop, keyword.span.stop⟩ [] :: trees)] := by
  intro more
  have heq : keyword.span.to span = ⟨keyword.span.start, max keyword.span.stop span.stop⟩ :=
    congrArg (Span.mk · _) (Nat.min_eq_left hspan)
  rw [List.cons_append, tokenMarks_unnamed hkeyword (hnext more), h, heq, forestMarks_singleton,
    marks_unnamed]
  rfl

theorem unary {operand : Tree} (h : Marked ts [operand])
    (ht : t.kind = .operator ∨ t.kind = .bang ∨ t.kind = .typeof) :
    Marked (t :: ts) [.node .unary t.text span [operand]] := by
  intro more
  rw [List.cons_append, tokenMarks_operator ht, h, forestMarks_singleton (.node ..), marks_unary,
    List.cons_append]

theorem binary {left right : Tree} (hleft : Marked ts [left]) (ht : t.kind = .operator)
    (hright : Marked us [right]) :
    Marked (ts ++ t :: us) [.node .binary t.text span [left, right]] := by
  intro more
  rw [List.append_assoc, List.cons_append, hleft, tokenMarks_operator (.inl ht), hright,
    forestMarks_singleton left, forestMarks_singleton (.node ..), marks_binary, List.append_assoc,
    List.cons_append]

end Marked

variable {part : Part} {ts : List Token} {trees : List Tree}

/-- What is read from tokens in order, whose names have a text, has the marks of the tokens. -/
theorem Derives.marked (h : Derives part ts trees) (hts : Orderly ts) : Marked ts trees := by
  induction h with
  | nothing => exact .nil
  | more _ _ ih ihrest => exact (ih hts.left).append (ihrest hts.right)
  | last _ ih | plainBranch _ ih | blockStatement _ ih | functionStatement _ ih
  | functionValue _ ih | members _ ih | firstOperand _ ih | expression _ ih => exact ih hts
  | comma _ hcomma _ ih ihrest =>
    exact (ih hts.left).append ((ihrest hts.right.tail).after hcomma rfl)
  | block hopening _ hclosing ih | parameters hopening _ hclosing ih =>
    exact ((ih hts.tail.left).between hopening hclosing ⟨rfl, rfl⟩).plain rfl
  | wrappedBranch _ _ ih => exact (ih hts).plain rfl
  | name ht | declared ht => exact Marked.nil.name ht (hts.name ht)
  | noParameters hopening hclosing =>
    exact (Marked.nil.between hopening hclosing ⟨rfl, rfl⟩).plain rfl
  | function hkeyword ht _ _ ihparams ihbody =>
    have hrest := hts.tail.tail
    exact ((ihparams hrest.left).append (ihbody hrest.right)).function hkeyword ht
      (hts.tail.name ht)
  | unnamed hkeyword hparams hbody ihparams ihbody =>
    have hstart := hbody.block_start fun t ht => hts.start_le t (List.mem_append_right _ ht)
    refine ((ihparams hts.tail.left).append (ihbody hts.tail.right)).unnamed hkeyword ?_ hstart
    intro more
    rw [List.append_assoc]
    exact hparams.startsWithName_parameters _
  | initialized ht hequals _ ih =>
    exact ((ih hts.tail.tail).after hequals rfl).name ht (hts.name ht)
  | var hkeyword _ hfinish ih | ret hkeyword _ hfinish ih =>
    exact (((ih hts.tail.left).finished hfinish).after hkeyword rfl).plain rfl
  | exprResult _ hfinish ih => exact ((ih hts.left).finished hfinish).plain rfl
  | retNothing hkeyword hfinish =>
    exact ((Marked.nil.finished hfinish).after hkeyword rfl).plain rfl
  | ifThen hkeyword hopening _ hclosing _ ihcondition ihfirst =>
    have hrest := hts.tail.tail
    have hcondition := ihcondition hrest.left
    exact (hcondition.condition hkeyword hopening hclosing (ihfirst hrest.right.tail)).plain rfl
  | ifElse hkeyword hopening _ hclosing _ helse _ ihcondition ihfirst ihsecond =>
    have hrest := hts.tail.tail
    have hbranches := hrest.right.tail
    have hcondition := ihcondition hrest.left
    have hsecond := (ihsecond hbranches.right.tail).after helse rfl
    exact (hcondition.condition hkeyword hopening hclosing
      ((ihfirst hbranches.left).append hsecond)).plain rfl
  | label ht hcolon _ ih =>
    have hname := Marked.nil.name ht (hts.name ht)
    exact (hname.append ((ih hts.tail.tail).after hcolon rfl)).plain rfl
  | jump hjump hfinish =>
    obtain ⟨hsilent, hplain⟩ := TokenKind.silent_of_jumpKind hjump
    exact ((Marked.nil.finished hfinish).after rfl hsilent).plain hplain
  | jumpTo hjump ht hfinish =>
    obtain ⟨hsilent, hplain⟩ := TokenKind.silent_of_jumpKind hjump
    have hname := Marked.nil.name ht (hts.tail.name ht)
    exact ((hname.finished hfinish).after rfl hsilent).plain hplain
  | empty ht => exact (Marked.nil.after ht rfl).plain rfl
  | leaf hleaf => exact Marked.nil.leaf (TokenKind.tokenKind_of_leafKind hleaf) hts.name
  | parentheses hopening _ hclosing ih =>
    exact (ih hts.tail.left).between hopening hclosing ⟨rfl, rfl⟩
  | @getProp _ _ _ token _ hdot ht ih =>
    have hproperty : Marked [token] [.node .propertyName token.text token.span []] :=
      Marked.nil.leaf (congrArg some ht.symm) hts.right.tail.name
    exact ((ih hts.left).append (hproperty.after hdot rfl)).plain rfl
  | callNothing _ hopening hclosing ih =>
    have hbehind := (Marked.nil.after hclosing rfl).after hopening rfl
    exact ((ih hts.left).append hbehind).plain rfl
  | call _ hopening _ hclosing ih iharguments =>
    have harguments := (iharguments hts.right.tail.left).before hclosing rfl
    exact ((ih hts.left).append (harguments.after hopening rfl)).plain rfl
  | unary hop _ ih => exact (ih hts.tail).unary (Token.operator_of_isUnaryOperator hop)
  | binary _ hop _ _ ih ihright => exact (ih hts.left).binary hop (ihright hts.right.tail)
  | assign _ _ hequals _ ih ihvalue =>
    exact ((ih hts.left).append ((ihvalue hts.right.tail).after hequals rfl)).plain rfl

/-- The nodes without a name among some trees are the names of their functions. -/
def Slotted (trees : List Tree) : Prop :=
  (forestNodes trees).filter Tree.isUnnamed = (forestNodes trees).filterMap Tree.emptyName?

theorem slotted_nil : Slotted [] := rfl

theorem forestNodes_append (us vs : List Tree) :
    forestNodes (us ++ vs) = forestNodes us ++ forestNodes vs := by
  induction us with
  | nil => rfl
  | cons t rest ih => rw [List.cons_append, forestNodes, forestNodes, ih, List.append_assoc]

section Slots

variable {t : Tree} {kind : NodeKind} {text : String} {span : Span} {children : List Tree}

theorem Slotted.append {us vs : List Tree} (hus : Slotted us) (hvs : Slotted vs) :
    Slotted (us ++ vs) := by
  rw [Slotted, forestNodes_append, List.filter_append, List.filterMap_append, hus, hvs]

theorem Slotted.cons (ht : Slotted [t]) {rest : List Tree} (hrest : Slotted rest) :
    Slotted (t :: rest) := ht.append hrest

/-- A node that is neither a name nor a function changes nothing. -/
theorem slotted_node (hkind : kind ≠ .name ∧ kind ≠ .function) (h : Slotted children) :
    Slotted [.node kind text span children] := by
  rw [Slotted] at h ⊢
  simp [forestNodes, Tree.nodes, Tree.isUnnamed, Tree.emptyName?, hkind, h]

theorem slotted_name (htext : text ≠ "") (h : Slotted children) :
    Slotted [.node .name text span children] := by
  rw [Slotted] at h ⊢
  simp [forestNodes, Tree.nodes, Tree.isUnnamed, Tree.emptyName?, htext, h]

/-- A function adds its name, whether that is empty or not. -/
theorem slotted_function {name : String} {place : Span} (h : Slotted children) :
    Slotted [.node .function text span (.node .name name place [] :: children)] := by
  rw [Slotted] at h ⊢
  by_cases hname : name = ""
  · simp [forestNodes, Tree.nodes, Tree.isUnnamed, Tree.emptyName?, Option.filter, hname, h]
  · simp [forestNodes, Tree.nodes, Tree.isUnnamed, Tree.emptyName?, Option.filter, hname, h]

end Slots

theorem Derives.slotted (h : Derives part ts trees) (hts : Orderly ts) : Slotted trees := by
  induction h with
  | nothing => exact slotted_nil
  | more _ _ ih ihrest => exact (ih hts.left).cons (ihrest hts.right)
  | comma _ _ _ ih ihrest => exact (ih hts.left).cons (ihrest hts.right.tail)
  | last _ ih | plainBranch _ ih | blockStatement _ ih | functionStatement _ ih
  | functionValue _ ih | members _ ih | firstOperand _ ih | expression _ ih => exact ih hts
  | wrappedBranch _ _ ih => exact slotted_node (by decide) (ih hts)
  | block _ _ _ ih | parameters _ _ _ ih => exact slotted_node (by decide) (ih hts.tail.left)
  | parentheses _ _ _ ih => exact ih hts.tail.left
  | name hname | declared hname => exact slotted_name (hts.name hname) slotted_nil
  | noParameters | retNothing | empty => exact slotted_node (by decide) slotted_nil
  | function _ _ _ _ ihparams ihbody =>
    have hrest := hts.tail.tail
    exact slotted_function ((ihparams hrest.left).cons (ihbody hrest.right))
  | unnamed _ _ _ ihparams ihbody =>
    exact slotted_function ((ihparams hts.tail.left).cons (ihbody hts.tail.right))
  | initialized hname _ _ ih => exact slotted_name (hts.name hname) (ih hts.tail.tail)
  | var _ _ _ ih | ret _ _ _ ih => exact slotted_node (by decide) (ih hts.tail.left)
  | exprResult _ _ ih | callNothing _ _ _ ih => exact slotted_node (by decide) (ih hts.left)
  | ifThen _ _ _ _ _ ihcondition ihfirst =>
    have hrest := hts.tail.tail
    exact slotted_node (by decide) ((ihcondition hrest.left).cons (ihfirst hrest.right.tail))
  | ifElse _ _ _ _ _ _ _ ihcondition ihfirst ihsecond =>
    have hrest := hts.tail.tail
    have hbranches := hrest.right.tail
    exact slotted_node (by decide) ((ihcondition hrest.left).cons
      ((ihfirst hbranches.left).cons (ihsecond hbranches.right.tail)))
  | label hname _ _ ih =>
    exact slotted_node (by decide)
      ((slotted_name (hts.name hname) slotted_nil).cons (ih hts.tail.tail))
  | jump hkind =>
    obtain ⟨hname, hfunction, -⟩ := TokenKind.jumpKind_ne hkind
    exact slotted_node ⟨hname, hfunction⟩ slotted_nil
  | jumpTo hkind ht =>
    obtain ⟨hname, hfunction, -⟩ := TokenKind.jumpKind_ne hkind
    exact slotted_node ⟨hname, hfunction⟩ (slotted_name (hts.tail.name ht) slotted_nil)
  | @leaf kind token hleaf =>
    have htoken := TokenKind.tokenKind_of_leafKind hleaf
    by_cases hname : kind = .name
    · subst hname
      exact slotted_name (hts.name (Option.some.inj htoken).symm) slotted_nil
    · refine slotted_node ⟨hname, ?_⟩ slotted_nil
      rintro rfl
      cases htoken
  | getProp _ _ _ ih =>
    exact slotted_node (by decide) ((ih hts.left).cons (slotted_node (by decide) rfl))
  | call _ _ _ _ ih iharguments =>
    exact slotted_node (by decide) ((ih hts.left).cons (iharguments hts.right.tail.left))
  | unary _ _ ih => exact slotted_node (by decide) (ih hts.tail)
  | binary _ _ _ _ ih ihright | assign _ _ _ _ ih ihright =>
    exact slotted_node (by decide) ((ih hts.left).cons (ihright hts.right.tail))

/-- A tree has what the tokens of a source have: the names and values with their places, one name
without a text for each bare `function`, in the place of its name, and the operators. -/
structure Keeps (source : String) (tree : Tree) : Prop where
  whole : ∃ used last, tokenize source = ⟨used ++ [last], none⟩ ∧ last.kind = .endOfInput ∧
    last.span = ⟨source.utf8ByteSize, source.utf8ByteSize⟩
  leaves : tree.nodes.filterMap Tree.token? = (tokenize source).tokens.filter Token.isLeaf
  bareKeywords : tree.nodes.filterMap Tree.bareKeyword? = bareKeywords (tokenize source).tokens
  emptyNames : tree.nodes.filter Tree.isUnnamed = tree.nodes.filterMap Tree.emptyName?
  operators : (tree.nodes.filterMap Tree.operator?).Perm
    ((tokenize source).tokens.filterMap Token.operator?)

theorem orderly_tokenize (source : String) : Orderly (tokenize source).tokens :=
  ⟨ascending_tokenize source, fun t ht => (tokenize_cutFrom source t ht).identifier⟩

/-- The parser loses nothing and makes up nothing. -/
theorem keeps_of_parse {source : String} {tree : Tree} (h : parse source = .ok tree) :
    Keeps source tree := by
  obtain ⟨used, last, span, htokens, hlast, htree, hbody⟩ := derives_of_parse h
  have horderly : Orderly used := by
    have := orderly_tokenize source
    rw [htokens] at this
    exact this.left
  have hmarks : tokenMarks (tokenize source).tokens = tree.marks := by
    rw [htokens, htree, hbody.marked horderly, marks_plain rfl,
      tokenMarks_silent (by rw [hlast]; rfl)]
    exact List.append_nil _
  refine ⟨⟨used, last, htokens, hlast, ?_⟩, ?_, ?_, ?_, ?_⟩
  · exact tokenize_end source last (by simp [htokens]) hlast
  · rw [← leaf?_tokenMarks, hmarks, filterMap_marks fun _ => rfl,
      filterMap_headMarks leaf?_headMarks]
  · rw [← bareKeyword?_tokenMarks, hmarks, filterMap_marks fun _ => rfl,
      filterMap_headMarks bareKeyword?_headMarks]
  · have hslotted : Slotted [tree] := by
      rw [htree]
      exact slotted_node (by decide) (hbody.slotted horderly)
    simpa [Slotted, forestNodes] using hslotted
  · rw [← operator?_tokenMarks, hmarks, ← filterMap_headMarks operator?_headMarks]
    exact ((perm_marks tree).filterMap Mark.operator?).symm

theorem keeps_of_parse_unnamed :
    ∃ tree, parse "var f = function (a) \x7b return !a.b - 1; \x7d;" = .ok tree ∧
      (tree.nodes.filter Tree.isUnnamed).length = 1 ∧
      Keeps "var f = function (a) \x7b return !a.b - 1; \x7d;" tree := by
  have hcount : (parse "var f = function (a) \x7b return !a.b - 1; \x7d;").toOption.map
      (fun tree => (tree.nodes.filter Tree.isUnnamed).length) = some 1 := by decide +kernel
  cases hparse : parse "var f = function (a) \x7b return !a.b - 1; \x7d;" with
  | error refusal =>
    rw [hparse] at hcount
    cases hcount
  | ok tree =>
    rw [hparse] at hcount
    exact ⟨tree, rfl, Option.some.inj hcount, keeps_of_parse hparse⟩

end RefCheck.Script
