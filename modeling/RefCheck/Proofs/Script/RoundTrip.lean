import RefCheck.Proofs.Script.Printed

/-!
# Printing and reading again

What a source is read as is printed as a source that is read as the same again, but for the spans,
unless the parentheses that are added nest too deeply (`parse_print`).
-/

namespace RefCheck.Script

open RefCheck.Text Reader

/-- Tokens whose words can be written. -/
abbrev Spelled (ts : List Token) : Prop := ∀ t ∈ ts, t.word.Spelled

theorem Token.text_ne {t : Token} (h : t.word.Spelled) (hkind : t.kind = .identifier) :
    t.text ≠ "" := by
  intro htext
  refine Spells.ne_nil h ?_
  simp [Word.chars, Token.word, hkind, htext]

theorem Token.word_of_isUnaryOperator {t : Token} (h : t.word.Spelled) (hop : t.isUnaryOperator) :
    t.word = .prefixed t.text := by
  obtain ⟨kind, text, span⟩ := t
  have hspelling : kind.spelling ≠ "" → kind ≠ .string → text = kind.spelling := by
    intro hfixed hstring
    simpa [Word.chars, Token.word, hstring] using h.eq_spelling hfixed
  cases kind with
  | bang => rw [hspelling (by decide) (by decide)]; rfl
  | typeof => rw [hspelling (by decide) (by decide)]; rfl
  | operator =>
    have htext : text = "-" ∨ text = "+" := by simpa [Token.isUnaryOperator] using hop
    rcases htext with rfl | rfl <;> rfl
  | _ => cases hop

theorem Derives.list_ne_nil {item : Part} {ts : List Token} {trees : List Tree}
    (h : Derives (.list item) ts trees) : trees ≠ [] := by
  cases h <;> exact List.cons_ne_nil _ _

theorem words_leaf {kind : NodeKind} {token : TokenKind} {text : String} {span : Span}
    (hkind : kind.tokenKind = some token) (htext : token = .identifier → text ≠ "") :
    (Tree.node kind text span []).words = [⟨token, text⟩] := by
  cases kind <;> cases hkind <;> first | rfl | exact if_neg (htext rfl)

theorem atomic_leaf {t : Token} {kind : NodeKind} {span : Span} (h : t.word.Spelled)
    (hleaf : t.kind.leafKind = some kind) : (Tree.node kind t.text span []).Atomic := by
  have hkind := TokenKind.tokenKind_of_leafKind hleaf
  have hwords : (Tree.node kind t.text span []).enclosed = [t.word] :=
    (if_pos (Option.isSome_iff_exists.mpr ⟨_, hkind⟩)).trans (words_leaf hkind (Token.text_ne h))
  refine ⟨.inl ⟨t.word, hwords, Option.isSome_iff_exists.mpr ⟨kind, hleaf⟩⟩, fun n us hne => ?_⟩
  rw [hwords]
  exact passes_leaf hleaf hne

/-- What is to be said of a tree that is read in the place of a part. -/
def Part.Again : Part → Tree → Prop
  | .statements | .statement => Tree.Stated
  | .branch | .block => Tree.Braced
  | .function => Tree.Callable
  | .parameters => Tree.Listed
  | .name => Tree.IsName
  | .declarator => Tree.Declared
  | .expression | .operand | .unary | .members => Tree.Atomic
  | .list item => item.Again

section Spelled

variable {ts us : List Token} {t : Token}

theorem Spelled.left (h : Spelled (ts ++ us)) : Spelled ts := (List.forall_mem_append.mp h).1

theorem Spelled.right (h : Spelled (ts ++ us)) : Spelled us := (List.forall_mem_append.mp h).2

theorem Spelled.head (h : Spelled (t :: ts)) : t.word.Spelled := (List.forall_mem_cons.mp h).1

theorem Spelled.tail (h : Spelled (t :: ts)) : Spelled ts := (List.forall_mem_cons.mp h).2

end Spelled

/-- Whatever is read from written tokens can be printed and read again. -/
theorem Derives.again {part : Part} {ts : List Token} {trees : List Tree}
    (h : Derives part ts trees) (hts : Spelled ts) : ∀ t ∈ trees, part.Again t := by
  induction h
  case nothing => exact List.forall_mem_nil _
  case more ih ihrest => exact List.forall_mem_append.mpr ⟨ih hts.left, ihrest hts.right⟩
  case comma ih ihrest => exact List.forall_mem_append.mpr ⟨ih hts.left, ihrest hts.right.tail⟩
  case last ih | plainBranch ih | firstOperand ih | expression ih | members ih => exact ih hts
  case parentheses ih => exact ih hts.tail.left
  -- Everywhere else there is one tree.
  all_goals refine List.forall_mem_singleton.mpr ?_
  case wrappedBranch ih => exact ⟨_, _, rfl, ih hts⟩
  case block ih => exact ⟨_, _, rfl, ih hts.tail.left⟩
  case name hname => exact ⟨_, _, rfl, Token.text_ne hts.head hname⟩
  case noParameters => exact ⟨_, _, rfl, List.forall_mem_nil _⟩
  case parameters ih => exact ⟨_, _, rfl, ih hts.tail.left⟩
  case function ihparams ihbody =>
    exact ⟨_, _, _, _, _, rfl, List.forall_mem_singleton.mp (ihparams hts.tail.tail.left),
      List.forall_mem_singleton.mp (ihbody hts.tail.tail.right)⟩
  case unnamed ihparams ihbody =>
    exact ⟨_, _, _, _, _, rfl, List.forall_mem_singleton.mp (ihparams hts.tail.left),
      List.forall_mem_singleton.mp (ihbody hts.tail.right)⟩
  case blockStatement ih => exact stated_of_braced (List.forall_mem_singleton.mp (ih hts))
  case functionStatement ih => exact stated_of_callable (List.forall_mem_singleton.mp (ih hts))
  case declared hname => exact ⟨_, _, Token.text_ne hts.head hname, .inl rfl⟩
  case initialized hname _ _ ih =>
    exact ⟨_, _, Token.text_ne hts.head hname,
      .inr ⟨_, List.forall_mem_singleton.mp (ih hts.tail.tail), rfl⟩⟩
  case var hnames _ ih => exact stated_var hnames.list_ne_nil (ih hts.tail.left)
  case exprResult ih => exact stated_exprResult (List.forall_mem_singleton.mp (ih hts.left))
  case retNothing => exact stated_ret (by simp) (List.forall_mem_nil _)
  case ret ih => exact stated_ret (by simp) (ih hts.tail.left)
  case ifThen ihcondition ihfirst =>
    have hrest := hts.tail.tail
    exact stated_ifThen (List.forall_mem_singleton.mp (ihcondition hrest.left))
      (List.forall_mem_singleton.mp (ihfirst hrest.right.tail))
  case ifElse ihcondition ihfirst ihsecond =>
    have hrest := hts.tail.tail
    have hbranches := hrest.right.tail
    exact stated_ifElse (List.forall_mem_singleton.mp (ihcondition hrest.left))
      (List.forall_mem_singleton.mp (ihfirst hbranches.left))
      (List.forall_mem_singleton.mp (ihsecond hbranches.right.tail))
  case label hname _ _ ih =>
    exact stated_label (Token.text_ne hts.head hname)
      (List.forall_mem_singleton.mp (ih hts.tail.tail))
  case jump hkind _ => exact stated_jump hkind (by simp) (List.forall_mem_nil _)
  case jumpTo hkind hname _ =>
    exact stated_jump hkind (by simp)
      (List.forall_mem_singleton.mpr ⟨_, _, rfl, Token.text_ne hts.tail.head hname⟩)
  case empty => exact stated_empty
  case leaf hleaf => exact atomic_leaf hts.head hleaf
  case functionValue ih => exact atomic_of_callable (List.forall_mem_singleton.mp (ih hts))
  case getProp ih => exact atomic_member (List.forall_mem_singleton.mp (ih hts.left))
  case callNothing ih =>
    exact atomic_call (List.forall_mem_singleton.mp (ih hts.left)) (List.forall_mem_nil _)
  case call ih iharguments =>
    exact atomic_call (List.forall_mem_singleton.mp (ih hts.left))
      (iharguments hts.right.tail.left)
  case unary hop _ ih =>
    exact atomic_unary hop (Token.word_of_isUnaryOperator hts.head hop)
      (List.forall_mem_singleton.mp (ih hts.tail))
  case binary hop hprecedence _ ih ihright =>
    exact atomic_binary hop hprecedence (List.forall_mem_singleton.mp (ih hts.left))
      (List.forall_mem_singleton.mp (ihright hts.right.tail))
  case assign hkind _ _ ih ihvalue =>
    exact atomic_assign hkind (List.forall_mem_singleton.mp (ih hts.left))
      (List.forall_mem_singleton.mp (ihvalue hts.right.tail))

/-- The tokens that are always spelled alike. -/
@[simp, reducible] def TokenKind.isFixed : TokenKind → Bool
  | identifier | number | string | operator | endOfInput => false
  | _ => true

@[simp] theorem spelled_of {kind : TokenKind} (hfixed : kind.isFixed) :
    (Word.of kind).Spelled := by
  have hchars : (Word.of kind).chars = kind.spelling.toList := by
    cases kind <;> first | rfl | cases hfixed
  have hspelling : kind.spelling ≠ "" := by
    cases kind <;> first | decide | cases hfixed
  rw [Word.Spelled, hchars]
  exact spells_spelling hspelling

/-- All words of a tree can be written. -/
def Tree.Writable (t : Tree) : Prop := ∀ w ∈ t.words, w.Spelled

theorem Tree.Writable.enclosed {t : Tree} (h : t.Writable) : ∀ w ∈ t.enclosed, w.Spelled := by
  rw [Tree.enclosed, Script.enclosed]
  split
  · exact h
  · exact List.forall_mem_cons.mpr ⟨spelled_of rfl,
      List.forall_mem_append.mpr ⟨h, List.forall_mem_singleton.mpr (spelled_of rfl)⟩⟩

theorem spelled_statementWords {trees : List Tree} (h : ∀ t ∈ trees, t.Writable) :
    ∀ w ∈ statementWords trees, w.Spelled := by
  induction trees with
  | nil => exact List.forall_mem_nil _
  | cons t rest ih =>
    obtain ⟨ht, hrest⟩ := List.forall_mem_cons.mp h
    exact List.forall_mem_append.mpr ⟨ht, ih hrest⟩

theorem spelled_listWords {trees : List Tree} (h : ∀ t ∈ trees, t.Writable) :
    ∀ w ∈ listWords trees, w.Spelled := by
  induction trees with
  | nil => exact List.forall_mem_nil _
  | cons t rest ih =>
    obtain ⟨ht, hrest⟩ := List.forall_mem_cons.mp h
    cases rest with
    | nil => exact ht.enclosed
    | cons next more =>
      rw [listWords_cons]
      exact List.forall_mem_append.mpr ⟨ht.enclosed,
        List.forall_mem_cons.mpr ⟨spelled_of rfl, ih hrest⟩⟩

theorem Token.spelled_name {t : Token} (h : t.word.Spelled) (hkind : t.kind = .identifier) :
    (Word.name t.text).Spelled := by
  rwa [Token.word, hkind] at h

theorem writable_leaf {t : Token} {kind : NodeKind} (h : t.word.Spelled)
    (hkind : kind.tokenKind = some t.kind) (span : Span) :
    (Tree.node kind t.text span []).Writable := by
  rw [Tree.Writable, words_leaf hkind (Token.text_ne h)]
  exact List.forall_mem_singleton.mpr h

theorem writable_name {t : Token} (h : t.word.Spelled) (hkind : t.kind = .identifier)
    (span : Span) : (Tree.node .name t.text span []).Writable :=
  writable_leaf h (by rw [hkind]; rfl) span

theorem writable_jump {word : TokenKind} {kind : NodeKind} {span : Span} {labels : List Tree}
    (hkind : word.jumpKind = some kind) (h : ∀ t ∈ labels, t.Writable) :
    (Tree.node kind "" span labels).Writable := by
  have hfixed : word.isFixed := by cases word <;> cases hkind <;> rfl
  have hend : (Word.of .semicolon).Spelled := spelled_of rfl
  rw [Tree.Writable, words_jump hkind]
  exact List.forall_mem_cons.mpr ⟨spelled_of hfixed,
    List.forall_mem_append.mpr ⟨spelled_listWords h, List.forall_mem_singleton.mpr hend⟩⟩

/-- Whatever is read from written tokens is printed in words that can be written. -/
theorem Derives.writable {part : Part} {ts : List Token} {trees : List Tree}
    (h : Derives part ts trees) (hts : Spelled ts) : ∀ t ∈ trees, t.Writable := by
  induction h
  case nothing => exact List.forall_mem_nil _
  case more ih ihrest => exact List.forall_mem_append.mpr ⟨ih hts.left, ihrest hts.right⟩
  case comma ih ihrest => exact List.forall_mem_append.mpr ⟨ih hts.left, ihrest hts.right.tail⟩
  case last ih | plainBranch ih | blockStatement ih | functionStatement ih | functionValue ih
    | firstOperand ih | expression ih | members ih => exact ih hts
  case parentheses ih => exact ih hts.tail.left
  all_goals refine List.forall_mem_singleton.mpr ?_
  case name hname | declared hname => exact writable_name hts.head hname _
  case leaf hleaf => exact writable_leaf hts.head (TokenKind.tokenKind_of_leafKind hleaf) _
  case jump hkind _ => exact writable_jump hkind (List.forall_mem_nil _)
  case jumpTo hkind hname _ =>
    exact writable_jump hkind
      (List.forall_mem_singleton.mpr (writable_name hts.tail.head hname _))
  all_goals
    simp only [Tree.Writable, Tree.words, List.forall_mem_cons, List.forall_mem_append,
      List.not_mem_nil, false_implies, implies_true, spelled_of, true_and, and_true]
  case noParameters | retNothing => exact List.forall_mem_nil _
  case wrappedBranch ih => exact spelled_statementWords (ih hts)
  case block ih => exact spelled_statementWords (ih hts.tail.left)
  case parameters ih | var ih | ret ih => exact spelled_listWords (ih hts.tail.left)
  case exprResult ih => exact spelled_listWords (ih hts.left)
  case function htoken _ _ ihparams ihbody =>
    have hrest := hts.tail.tail
    exact ⟨writable_name hts.tail.head htoken .none,
      List.forall_mem_singleton.mp (ihparams hrest.left),
      List.forall_mem_singleton.mp (ihbody hrest.right)⟩
  case unnamed ihparams ihbody =>
    exact ⟨List.forall_mem_nil _, List.forall_mem_singleton.mp (ihparams hts.tail.left),
      List.forall_mem_singleton.mp (ihbody hts.tail.right)⟩
  case initialized hname _ _ ih =>
    exact ⟨Token.spelled_name hts.head hname,
      (List.forall_mem_singleton.mp (ih hts.tail.tail)).enclosed⟩
  case ifThen ihcondition ihfirst =>
    have hrest := hts.tail.tail
    exact ⟨(List.forall_mem_singleton.mp (ihcondition hrest.left)).enclosed,
      List.forall_mem_singleton.mp (ihfirst hrest.right.tail)⟩
  case ifElse ihcondition ihfirst ihsecond =>
    have hrest := hts.tail.tail
    have hbranches := hrest.right.tail
    exact ⟨(List.forall_mem_singleton.mp (ihcondition hrest.left)).enclosed,
      List.forall_mem_singleton.mp (ihfirst hbranches.left),
      List.forall_mem_singleton.mp (ihsecond hbranches.right.tail)⟩
  case label hname _ _ ih =>
    exact ⟨writable_name hts.head hname .none,
      List.forall_mem_singleton.mp (ih hts.tail.tail)⟩
  case getProp _ hname ih =>
    exact ⟨(List.forall_mem_singleton.mp (ih hts.left)).enclosed,
      List.forall_mem_singleton.mpr (Token.spelled_name hts.right.tail.head hname)⟩
  case callNothing ih =>
    exact ⟨(List.forall_mem_singleton.mp (ih hts.left)).enclosed, List.forall_mem_nil _⟩
  case call ih iharguments =>
    exact ⟨(List.forall_mem_singleton.mp (ih hts.left)).enclosed,
      spelled_listWords (iharguments hts.right.tail.left)⟩
  case unary hop _ ih =>
    have hword := hts.head
    rw [Token.word_of_isUnaryOperator hword hop] at hword
    exact ⟨hword, (List.forall_mem_singleton.mp (ih hts.tail)).enclosed⟩
  case binary hop _ _ ih ihright =>
    have hword := hts.right.head
    rw [Token.word, hop] at hword
    exact ⟨(List.forall_mem_singleton.mp (ih hts.left)).enclosed, hword,
      (List.forall_mem_singleton.mp (ihright hts.right.tail)).enclosed⟩
  case assign ih ihvalue =>
    exact ⟨(List.forall_mem_singleton.mp (ih hts.left)).enclosed,
      (List.forall_mem_singleton.mp (ihvalue hts.right.tail)).enclosed⟩

/-- All statements are read up to the end of input. -/
theorem passes_script {trees : List Tree} (h : ∀ t ∈ trees, t.Stated) (span : Span) :
    Rereads (statementWords trees ++ [.of .endOfInput]) script [.of .endOfInput]
      (.node .script "" span trees) := by
  have hlength : trees.length < (statementWords trees ++ [Word.of .endOfInput]).length := by
    have := length_statementWords fun t ht => (h t ht).words_ne_nil
    simp only [List.length_append, List.length_cons]
    omega
  have hbody : Passes (statementWords trees ++ [.of .endOfInput])
      (perToken (upTo .endOfInput .expression (statement (below maxNesting)))) [.of .endOfInput]
      fun as => as.map Tree.bare = trees.map Tree.bare :=
    passes_perToken (passes_upTo (fun t ht => (h t ht).starts)
      (fun t ht => (h t ht).reread maxNesting) (.inr rfl) hlength)
  obtain ⟨v, vs, hvs⟩ := List.exists_cons_of_ne_nil (List.append_ne_nil_of_right_ne_nil
    (statementWords trees) (List.cons_ne_nil (Word.of .endOfInput) []))
  rw [hvs] at hbody ⊢
  refine passes_current fun first _ => passes_bind hbody fun as has => ?_
  exact passes_current fun last _ => passes_pure (by simp [has])

/-- The text that a tree is printed as is read as the same tree but for its spans, unless it nests
too deeply. -/
theorem parse_print {source : String} {tree : Tree} (h : parse source = .ok tree) :
    (∃ again, parse tree.print = .ok again ∧ again.bare = tree.bare) ∨
      ∃ refusal, parse tree.print = .error refusal ∧
        refusal.error.fault = .nestedTooDeeply := by
  obtain ⟨used, last, span, htokens, -, htree, hbody⟩ := derives_of_parse h
  have hspelled : Spelled used := by
    intro t ht
    have hsealed := sealed_tokenize source
    rw [htokens] at hsealed
    refine spelled_tokenize source t ?_ (hsealed.ne_end (List.cons_ne_nil _ _) t ht)
    rw [htokens]
    exact List.mem_append_left _ ht
  have hwords : tree.words = statementWords tree.children := by
    rw [htree]
    rfl
  have hwritable : ∀ w ∈ tree.words, w.Spelled := by
    rw [hwords]
    exact spelled_statementWords (hbody.writable hspelled)
  obtain ⟨ts, hprinted, hts⟩ := tokenize_words hwritable
  cases ts with
  | nil => exact absurd hts.symm (by simp)
  | cons first ahead =>
    rw [Tree.print, parse, hprinted]
    dsimp only
    have hread := passes_script (hbody.again hspelled) span ⟨first, ahead, none⟩ rfl
      (by rw [← hwords]; exact hts)
    rw [← htree] at hread
    rcases hread with ⟨again, rest, hdone, -, -, hagain⟩ | ⟨error, loose, hfailed, hdeep⟩
    · rw [hdone]
      exact .inl ⟨again, rfl, hagain⟩
    · rw [hfailed]
      exact .inr ⟨⟨error, loose⟩, rfl, hdeep⟩

theorem parse_print_labelled :
    ∃ tree, parse "go: if (f('\"', -a.b)) break go; else (function() \x7b return !g + 1 * 2 \x7d)" =
        .ok tree ∧
      tree.print = "go : if ( ( f ( '\"' , ( - ( a . b ) ) ) ) ) \x7b break go ; \x7d else " ++
        "\x7b ( function ( ) \x7b return ( ( ! g ) + ( 1 * 2 ) ) ; \x7d ) ; \x7d" ∧
      (parse tree.print).isOk ∧
      ((∃ again, parse tree.print = .ok again ∧ again.bare = tree.bare) ∨
        ∃ refusal, parse tree.print = .error refusal ∧
          refusal.error.fault = .nestedTooDeeply) := by
  have hprinted : (parse
      "go: if (f('\"', -a.b)) break go; else (function() \x7b return !g + 1 * 2 \x7d)").toOption.map
        (fun tree => (tree.print, (parse tree.print).isOk)) =
      some ("go : if ( ( f ( '\"' , ( - ( a . b ) ) ) ) ) \x7b break go ; \x7d else " ++
        "\x7b ( function ( ) \x7b return ( ( ! g ) + ( 1 * 2 ) ) ; \x7d ) ; \x7d", true) := by
    decide +kernel
  cases hparse : parse
      "go: if (f('\"', -a.b)) break go; else (function() \x7b return !g + 1 * 2 \x7d)" with
  | error refusal =>
    rw [hparse] at hprinted
    cases hprinted
  | ok tree =>
    rw [hparse] at hprinted
    obtain ⟨hprint, hok⟩ := Prod.mk.inj (Option.some.inj hprinted)
    exact ⟨tree, rfl, hprint, hok, parse_print hparse⟩

end RefCheck.Script
