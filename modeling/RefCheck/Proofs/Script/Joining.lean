import RefCheck.Proofs.Script.Carrying

/-!
# Scripts one behind the other

Nothing is carried over from one statement to the next. If two scripts can be read, so can the first
one, a semicolon on a line of its own, and the second one (`parse_joined`): the statements are those
of both, with those of the second one moved, and the semicolon ends the last statement of the first
one or is a statement that is empty. The two together are taken to be shorter than 2^32 bytes, as
all sources are.
-/

namespace RefCheck.Script

open RefCheck.Text Reader

section Rows

variable {item : Reader Tree} {c d e : Cursor} {trees more : List Tree} {wanted : Wanted}

/-- Statements one after the other, from one cursor to another. -/
inductive Row (item : Reader Tree) : Cursor → List Tree → Cursor → Prop
  | nothing {c : Cursor} : Row item c [] c
  | more {c d e : Cursor} {tree : Tree} {rest : List Tree} : c.current.kind ≠ .endOfInput →
      item c = .done tree d → Row item d rest e → Row item c (tree :: rest) e

theorem Row.append (h : Row item c trees d) (hmore : Row item d more e) :
    Row item c (trees ++ more) e := by
  induction h with
  | nothing => exact hmore
  | more hne hitem _ ih => exact .more hne hitem (ih hmore)

/-- The loop over the statements of a script reads a row of them up to the end, and any such row. -/
theorem upTo_eq_done_iff (hitem : Reads .statement item) (hc : Sealed c.fault c.tokens)
    {fuel : Nat} (hfuel : c.ahead.length < fuel) :
    upTo .endOfInput wanted item fuel c = .done trees d ↔
      Row item c trees d ∧ d.current.kind = .endOfInput := by
  induction fuel generalizing c trees with
  | zero => exact absurd hfuel (Nat.not_lt_zero _)
  | succ fuel ih =>
    by_cases hend : c.current.kind = .endOfInput
    · rw [upTo_succ, if_pos hend]
      constructor
      · rintro ⟨⟩
        exact ⟨.nothing, hend⟩
      · rintro ⟨hrow, -⟩
        cases hrow with
        | nothing => rfl
        | more hne => exact absurd hend hne
    · have hround : upTo .endOfInput wanted item (fuel + 1) c =
          (item >>= fun first => holding first (upTo .endOfInput wanted item fuel) >>= fun rest =>
            pure (first :: rest)) c := by
        rw [upTo_succ, if_neg hend, if_neg hend]
      rw [hround, bind_eq_done_iff]
      constructor
      · rintro ⟨first, x, hread, hmore⟩
        obtain ⟨rest, y, hrest, ⟨⟩⟩ := bind_eq_done_iff.mp hmore
        have hless := hitem.length_lt rfl hc hread
        obtain ⟨hrow, hlast⟩ := (ih (hitem.sealed hc hread) (by omega)).mp
          (holding_eq_done_iff.mp hrest)
        exact ⟨.more hend hread hrow, hlast⟩
      · rintro ⟨hrow, hlast⟩
        cases hrow with
        | nothing => exact absurd hlast hend
        | @more _ x _ first rest _ hread hrow =>
          have hless := hitem.length_lt rfl hc hread
          have hrest := (ih (hitem.sealed hc hread) (by omega)).mpr ⟨hrow, hlast⟩
          exact ⟨first, x, hread,
            bind_eq_done_iff.mpr ⟨rest, d, holding_eq_done_iff.mpr hrest, rfl⟩⟩

/-- A row that goes up to a seam goes on behind it, or its last statement gets past it. -/
theorem Row.carried {seam : Seam} {c' : Cursor} (h : Row item c trees d)
    (hitem : seam.Carries .statement seam.Extends item) (hc : seam.Before c c') :
    (∃ d', seam.Before d d' ∧ Row item c' (trees.map (Tree.moved seam.shift)) d') ∨
      ∃ init last last' d', trees = init ++ [last] ∧ seam.Extends last last' ∧ seam.Past d d' ∧
        Row item c' (init.map (Tree.moved seam.shift) ++ [last']) d' := by
  induction h generalizing c' with
  | nothing => exact .inl ⟨c', hc, .nothing⟩
  | @more c d e tree rest hne hread hrow ih =>
    have hne' : c'.current.kind ≠ .endOfInput := by rwa [hc.current hne, Token.kind_moved]
    have hkeeps := hitem.keeps hc
    rw [hread] at hkeeps
    generalize hfound : item c' = found at hkeeps
    cases hkeeps with
    | before hd =>
      rcases ih hd with ⟨e', he, hrow'⟩ | ⟨init, last, last', e', rfl, hlast, he, hrow'⟩
      · exact .inl ⟨e', he, .more hne' hfound hrow'⟩
      · exact .inr ⟨tree :: init, last, last', e', rfl, hlast, he, .more hne' hfound hrow'⟩
    | past hd hv =>
      cases hrow with
      | nothing =>
        exact .inr ⟨[], tree, _, _, rfl, hv, hd, .more hne' hfound .nothing⟩
      | more hmore => exact absurd hd.ended hmore

end Rows

section Scripts

variable {source : String} {c d : Cursor} {body : List Tree}

/-- The statements of a script. -/
abbrev scriptStatement : Reader Tree := statement (below maxNesting)

theorem reads_scriptStatement : Reads .statement scriptStatement :=
  reads_statement (below_sound maxNesting)

/-- A script is a row of statements up to the end. -/
theorem script_eq_done_iff (hc : Sealed c.fault c.tokens) {tree : Tree} :
    script c = .done tree d ↔ ∃ body, Row scriptStatement c body d ∧
      d.current.kind = .endOfInput ∧
      tree = .branch .script ⟨c.current.span.start, d.current.span.stop⟩ body := by
  have hloop (body : List Tree) (e : Cursor) := @upTo_eq_done_iff _ c e body .expression
    reads_scriptStatement hc _ (Nat.lt_succ_self _)
  have hscript : script c = (perToken (upTo .endOfInput .expression scriptStatement) >>=
      fun body => current >>= fun last =>
        pure (Tree.branch .script ⟨c.current.span.start, last.span.stop⟩ body)) c := rfl
  rw [hscript, bind_eq_done_iff]
  constructor
  · rintro ⟨body, e, hbody, ⟨⟩⟩
    obtain ⟨hrow, hend⟩ := (hloop body d).mp hbody
    exact ⟨body, hrow, hend, rfl⟩
  · rintro ⟨body, hrow, hend, rfl⟩
    exact ⟨body, d, (hloop body d).mpr ⟨hrow, hend⟩, rfl⟩

theorem parse_eq_ok_iff {tree : Tree} : parse source = .ok tree ↔
    ∃ c d body, tokenize source = ⟨c.tokens, c.fault⟩ ∧ Row scriptStatement c body d ∧
      d.current.kind = .endOfInput ∧
      tree = .branch .script ⟨c.current.span.start, d.current.span.stop⟩ body := by
  have hsealed := sealed_tokenize source
  rw [parse]
  generalize tokenize source = scanned at hsealed
  obtain ⟨tokens, fault⟩ := scanned
  cases tokens with
  | nil =>
    cases fault with
    | none => exact absurd rfl hsealed
    | some error =>
      constructor
      · intro h
        cases h
      · rintro ⟨c, d, body, hc, -⟩
        cases hc
  | cons first ahead =>
    dsimp only
    constructor
    · intro h
      cases hscript : script ⟨first, ahead, fault⟩ with
      | failed => simp [hscript] at h
      | done found d =>
        rw [hscript] at h
        cases h
        obtain ⟨body, hrow, hend, htree⟩ := (script_eq_done_iff hsealed).mp hscript
        exact ⟨⟨first, ahead, fault⟩, d, body, rfl, hrow, hend, htree⟩
    · rintro ⟨⟨now, more, fault'⟩, d, body, hc, hrow, hend, rfl⟩
      cases hc
      rw [(script_eq_done_iff hsealed).mpr ⟨body, hrow, hend, rfl⟩]

/-- The tokens of a script up to the end, and the row of its statements on them. -/
theorem row_of_parse {tree : Tree} (h : parse source = .ok tree) :
    ∃ ts last c d, tokenize source = ⟨ts ++ [last], none⟩ ∧
      (∀ t ∈ ts, t.kind ≠ .endOfInput) ∧ last.kind = .endOfInput ∧
      Derives .statements ts tree.children ∧ c.tokens = ts ++ [last] ∧ c.fault = none ∧
      Row scriptStatement c tree.children d ∧ d.current.kind = .endOfInput := by
  obtain ⟨ts, last, -, htokens, hlast, -, hstatements⟩ := derives_of_parse h
  obtain ⟨c, d, body, hc, hrow, hd, rfl⟩ := parse_eq_ok_iff.mp h
  obtain ⟨hctokens, hcfault⟩ := Scanned.mk.inj (hc.symm.trans htokens)
  have hts := (htokens ▸ sealed_tokenize source).ne_end (List.cons_ne_nil _ _)
  exact ⟨ts, last, c, d, htokens, hts, hlast, hstatements, hctokens, hcfault, hrow, hd⟩

end Scripts

section Joined

variable {s t : String} {ts us : List Token} {last stop : Token}

/-- The tokens of two texts with a semicolon on a line of its own between them. -/
theorem tokenize_joined (hs : tokenize s = ⟨ts ++ [last], none⟩) (hlast : last.kind = .endOfInput)
    (ht : tokenize t = ⟨us ++ [stop], none⟩) :
    ∃ stop', stop'.kind = .endOfInput ∧ tokenize (s ++ "\n;\n" ++ t) =
      ⟨ts ++ ⟨.semicolon, ";", ⟨s.utf8ByteSize + 1, s.utf8ByteSize + 2⟩⟩ ::
        (us.map (Token.moved (s.utf8ByteSize + 3)) ++ [stop']), none⟩ := by
  have hmem : last ∈ (tokenize s).tokens := by
    rw [hs]
    exact List.mem_append_right _ List.mem_cons_self
  have hstart := congrArg Span.start (tokenize_end s last hmem hlast)
  have hfirst : Scans ⟨0, s.toList⟩ ⟨ts ++ [last], none⟩ :=
    hs ▸ scans_scanUpTo _ (Nat.lt_succ_self _)
  have hsecond : Scans ⟨0, t.toList⟩ ⟨us ++ [stop], none⟩ :=
    ht ▸ scans_scanUpTo _ (Nat.lt_succ_self _)
  obtain ⟨stop', hstop', hbehind⟩ : ∃ stop', stop'.kind = .endOfInput ∧
      Scans ⟨s.utf8ByteSize + 2, '\n' :: t.toList⟩
        ⟨us.map (Token.moved (s.utf8ByteSize + 3)) ++ [stop'], none⟩ := by
    have hend := hsecond.continued (show Feeds [] from nofun) (s.utf8ByteSize + 3) (.ends rfl rfl)
    rw [Nat.zero_add, List.append_nil] at hend
    exact ⟨_, rfl, hend.of_scan rfl⟩
  have hfeed : Feeds ('\n' :: ';' :: '\n' :: t.toList) := by
    rintro _ ⟨⟩
    rfl
  have hmark : Scans ⟨last.span.start + 0, '\n' :: ';' :: '\n' :: t.toList⟩
      ⟨⟨.semicolon, ";", ⟨s.utf8ByteSize + 1, s.utf8ByteSize + 2⟩⟩ ::
        (us.map (Token.moved (s.utf8ByteSize + 3)) ++ [stop']), none⟩ := by
    rw [hstart]
    exact .goes rfl (show TokenKind.semicolon ≠ .endOfInput by decide) hbehind
  have htext : (s ++ "\n;\n" ++ t).toList = s.toList ++ '\n' :: ';' :: '\n' :: t.toList := by
    simp
  have hmoved : ts.map (Token.moved 0) = ts := List.map_id' ts
  have hjoined := hfirst.continued hfeed 0 hmark
  rw [hmoved] at hjoined
  refine ⟨stop', hstop', (scans_scanUpTo _ (Nat.lt_succ_self _)).unique ?_⟩
  rw [htext]
  exact hjoined

/-- Nothing in the grammar starts with `else`. -/
theorem Derives.head_ne_else {part : Part} {trees : List Tree} (h : Derives part ts trees) :
    ∀ t ∈ ts.head?, t.kind ≠ .elseWord := by
  induction h with
  | nothing => nofun
  | more h _ ih _ | exprResult h _ ih | getProp h _ _ ih | callNothing h _ _ ih
  | call h _ _ _ ih _ | binary h _ _ _ ih _ | assign h _ _ _ ih _ =>
    rw [List.head?_append_of_ne_nil _ (h.ne_nil rfl)]
    exact ih
  | @comma item ts us t rest comma _ hcomma _ ih =>
    cases ts with
    | nil =>
      rintro _ ⟨⟩ helse
      rw [helse] at hcomma
      cases hcomma
    | cons => exact ih
  | last _ ih | plainBranch _ ih | wrappedBranch _ _ ih | blockStatement _ ih
  | functionStatement _ ih | functionValue _ ih | members _ ih | firstOperand _ ih
  | expression _ ih => exact ih
  | leaf hleaf =>
    rintro _ ⟨⟩ helse
    rw [helse] at hleaf
    cases hleaf
  | jump hkind | jumpTo hkind =>
    rintro _ ⟨⟩ helse
    rw [helse] at hkind
    cases hkind
  | unary hop =>
    rintro _ ⟨⟩ helse
    rw [Token.isUnaryOperator, helse] at hop
    cases hop
  | block hkind | name hkind | noParameters hkind | parameters hkind | function hkind
  | unnamed hkind | declared hkind | initialized hkind | var hkind | retNothing hkind | ret hkind
  | ifThen hkind | ifElse hkind | label hkind | empty hkind | parentheses hkind =>
    rintro _ ⟨⟩ helse
    rw [helse] at hkind
    cases hkind

/-- The cursor in front of some tokens. -/
theorem exists_cursor (ts : List Token) (t : Token) (rest : List Token) :
    ∃ c : Cursor, c.tokens = ts ++ t :: rest ∧ c.fault = none := by
  cases ts with
  | nil => exact ⟨⟨t, rest, none⟩, rfl, rfl⟩
  | cons u us => exact ⟨⟨u, us ++ t :: rest, none⟩, rfl, rfl⟩

/-- A semicolon where a statement could stand is one. -/
theorem scriptStatement_semicolon {mark next : Token} {more : List Token}
    (hmark : mark.kind = .semicolon) :
    scriptStatement ⟨mark, next :: more, none⟩ =
      .done (.branch .empty mark.span []) ⟨next, more, none⟩ := by
  change (statementBody _ _ : Reader Tree) _ = _
  obtain ⟨kind, text, span⟩ := mark
  obtain rfl : kind = .semicolon := hmark
  rfl

/-- The statements in front of a seam go on to what stands behind it. -/
theorem Row.up_to_mark {seam : Seam} {c c' d : Cursor} {trees : List Tree}
    (h : Row scriptStatement c trees d) (hd : d.current.kind = .endOfInput)
    (hc : seam.Before c c') (hmark : seam.mark.kind = .semicolon) (hshift : seam.shift = 0) :
    ∃ firsts d', Row scriptStatement c' firsts d' ∧ d'.tokens = seam.behind ∧ d'.fault = none ∧
      (firsts = trees ++ [.branch .empty seam.mark.span []] ∨
        ∃ init last last', trees = init ++ [last] ∧ firsts = init ++ [last'] ∧
          last' = last.extended seam.mark.span ∧ last'.bare = last.bare) := by
  have hmoved : Tree.moved seam.shift = id := by
    funext t
    rw [hshift]
    exact t.moved_zero
  rcases h.carried (carries_statement (below_carried seam maxNesting)) hc with
    ⟨d', hd', hrow⟩ | ⟨init, last, last', d', rfl, hlast, hd', hrow⟩
  · obtain ⟨next, more, hbehind, -⟩ :=
      seam.closes.resolve_left (fun hend => nomatch hmark.symm.trans hend) |>.2
    rw [hd'.mark hd, hbehind] at hrow
    have hempty : Row scriptStatement ⟨seam.mark, next :: more, none⟩
        [.branch .empty seam.mark.span []] ⟨next, more, none⟩ :=
      .more (by simp [hmark]) (scriptStatement_semicolon hmark) .nothing
    refine ⟨_, _, hrow.append hempty, hbehind.symm, rfl, .inl ?_⟩
    rw [hmoved, List.map_id]
  · rw [Seam.Extends, hmoved] at hlast
    rw [hmoved, List.map_id] at hrow
    exact ⟨_, d', hrow, hd'.tokens, hd'.fault,
      .inr ⟨init, last, last', rfl, rfl, hlast, hlast ▸ bare_extended last⟩⟩

/-- The statements in front of a seam that is the end are those of what goes up to it. -/
theorem Row.up_to_end {seam : Seam} {c c' d : Cursor} {trees : List Tree}
    (h : Row scriptStatement c trees d) (hd : d.current.kind = .endOfInput)
    (hc : seam.Before c c') (hmark : seam.mark.kind = .endOfInput) :
    ∃ d', Row scriptStatement c' (trees.map (Tree.moved seam.shift)) d' ∧
      d'.current.kind = .endOfInput := by
  rcases h.carried (carries_statement (below_carried seam maxNesting)) hc with
    ⟨d', hd', hrow⟩ | ⟨_, _, _, _, _, _, hpast, _⟩
  · exact ⟨d', hrow, by rw [hd'.mark hd, hmark]⟩
  · have hsemicolon := hpast.mark
    rw [hmark] at hsemicolon
    cases hsemicolon

/-- Two scripts with a semicolon on a line of its own between them are read as the statements of the
first one and of the second one, moved. The semicolon is an empty statement, or the last statement
of the first script, and with it what that ends with, goes on over it. -/
theorem parse_joined {a b : Tree} (hs : parse s = .ok a) (ht : parse t = .ok b) :
    ∃ span firsts,
      parse (s ++ "\n;\n" ++ t) = .ok (.branch .script span
        (firsts ++ b.children.map (Tree.moved (s.utf8ByteSize + 3)))) ∧
      (firsts = a.children ++
          [.branch .empty ⟨s.utf8ByteSize + 1, s.utf8ByteSize + 2⟩ []] ∨
        ∃ init last last', a.children = init ++ [last] ∧ firsts = init ++ [last'] ∧
          last' = last.extended ⟨s.utf8ByteSize + 1, s.utf8ByteSize + 2⟩ ∧
          last'.bare = last.bare) := by
  obtain ⟨ts, last, c, d, htokens, hts, hlast, -, hctokens, hcfault, hrow, hd⟩ := row_of_parse hs
  obtain ⟨us, stop, x, y, htokens', hus, hstop, hstatements, hxtokens, hxfault, hrow', hy⟩ :=
    row_of_parse ht
  obtain ⟨stop', hstop', hjoined⟩ := tokenize_joined htokens hlast htokens'
  obtain ⟨z, hztokens, -⟩ :=
    exists_cursor (us.map (Token.moved (s.utf8ByteSize + 3))) stop' []
  have hzkind : z.current.kind ≠ .elseWord := by
    cases us with
    | nil =>
      obtain ⟨hz, -⟩ := List.cons.inj hztokens
      simp [hz, hstop']
    | cons u us =>
      obtain ⟨hz, -⟩ := List.cons.inj hztokens
      rw [hz]
      exact hstatements.head_ne_else u rfl
  -- The first seam has the whole second script behind it, the second one is its end.
  obtain ⟨first, hshift, hmark, hbehind⟩ : ∃ seam : Seam, seam.shift = 0 ∧
      seam.mark = ⟨.semicolon, ";", ⟨s.utf8ByteSize + 1, s.utf8ByteSize + 2⟩⟩ ∧
      seam.behind = z.tokens :=
    ⟨⟨0, _, _, .inr ⟨rfl, z.current, z.ahead, rfl, hzkind⟩⟩, rfl, rfl, rfl⟩
  obtain ⟨second, hshift', hmark', hbehind'⟩ : ∃ seam : Seam,
      seam.shift = s.utf8ByteSize + 3 ∧ seam.mark = stop' ∧ seam.behind = [] :=
    ⟨⟨_, stop', [], .inl hstop'⟩, rfl, rfl, rfl⟩
  obtain ⟨c', hctokens', hcfault'⟩ := exists_cursor ts first.mark first.behind
  have hbefore : first.Before c c' := by
    refine .of_tokens hctokens hcfault hts hlast ?_ hcfault'
    rw [hctokens', hshift]
    exact congrArg (· ++ _) (List.map_id' ts).symm
  obtain ⟨firsts, z', hfirsts, hztokens', hzfault', hcases⟩ :=
    hrow.up_to_mark hd hbefore (by rw [hmark]) hshift
  have hbefore' : second.Before x z' := by
    refine .of_tokens hxtokens hxfault hus hstop ?_ hzfault'
    rw [hztokens', hbehind, hztokens, hshift', hmark', hbehind']
  obtain ⟨y', hseconds, hy'⟩ := hrow'.up_to_end hy hbefore' (by rw [hmark', hstop'])
  have htokens'' : tokenize (s ++ "\n;\n" ++ t) = ⟨c'.tokens, c'.fault⟩ := by
    rw [hjoined, hctokens', hcfault', hbehind, hztokens, hmark]
  rw [hmark] at hcases
  rw [hshift'] at hseconds
  exact ⟨_, firsts,
    parse_eq_ok_iff.mpr ⟨c', y', _, htokens'', hfirsts.append hseconds, hy', rfl⟩, hcases⟩

/-- A branch without a semicolon, in front of a statement. -/
theorem parse_joined_branch :
    ∃ a b, parse "if (a) b" = .ok a ∧ parse "return c" = .ok b ∧ ∃ span firsts,
      parse ("if (a) b" ++ "\n;\n" ++ "return c") = .ok (.branch .script span
        (firsts ++ b.children.map (Tree.moved ("if (a) b".utf8ByteSize + 3)))) ∧
      (firsts = a.children ++
          [.branch .empty ⟨"if (a) b".utf8ByteSize + 1, "if (a) b".utf8ByteSize + 2⟩ []] ∨
        ∃ init last last', a.children = init ++ [last] ∧ firsts = init ++ [last'] ∧
          last' = last.extended
            ⟨"if (a) b".utf8ByteSize + 1, "if (a) b".utf8ByteSize + 2⟩ ∧
          last'.bare = last.bare) := by
  have hs : (parse "if (a) b").isOk = true := by decide +kernel
  have ht : (parse "return c").isOk = true := by decide +kernel
  cases ha : parse "if (a) b" with
  | error => simp [ha, Except.isOk, Except.toBool] at hs
  | ok a =>
    cases hb : parse "return c" with
    | error => simp [hb, Except.isOk, Except.toBool] at ht
    | ok b => exact ⟨a, b, rfl, rfl, parse_joined ha hb⟩

end Joined

end RefCheck.Script
