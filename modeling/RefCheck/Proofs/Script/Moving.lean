import RefCheck.Proofs.Script.Partition

/-!
# Moved texts

A text that is put behind another one has the same tokens there, each so many bytes further on, and
a text behind which a line feed comes has the tokens that it has alone, whatever comes then: no
token and no comment that can be left open goes over the line feed (`Scans.continued`).
-/

namespace RefCheck.Text

/-- A span so many bytes further on. -/
def Span.moved (bytes : Nat) (s : Span) : Span := ⟨s.start + bytes, s.stop + bytes⟩

@[simp] theorem Span.moved_zero (s : Span) : s.moved 0 = s := rfl

theorem Span.moved_to (bytes : Nat) (s t : Span) :
    (s.to t).moved bytes = (s.moved bytes).to (t.moved bytes) := by
  simp only [Span.moved, Span.to, Span.mk.injEq]
  omega

theorem Span.to_assoc (s t u : Span) : (s.to t).to u = s.to (t.to u) := by
  simp only [Span.to, Nat.min_assoc, Nat.max_assoc]

end RefCheck.Text

namespace RefCheck.Script

open RefCheck.Text

def Token.moved (bytes : Nat) (t : Token) : Token := { t with span := t.span.moved bytes }

section Tokens

variable (bytes : Nat) (t : Token)

@[simp] theorem Token.kind_moved : (t.moved bytes).kind = t.kind := rfl

@[simp] theorem Token.text_moved : (t.moved bytes).text = t.text := rfl

@[simp] theorem Token.span_moved : (t.moved bytes).span = t.span.moved bytes := rfl

@[simp] theorem Token.moved_zero : t.moved 0 = t := rfl

end Tokens

mutual

/-- A tree with all its spans so many bytes further on. -/
def Tree.moved (bytes : Nat) : Tree → Tree
  | .node kind text span children =>
    .node kind text (span.moved bytes) (forestMoved bytes children)

def forestMoved (bytes : Nat) : List Tree → List Tree
  | [] => []
  | t :: rest => t.moved bytes :: forestMoved bytes rest

end

section Trees

variable (bytes : Nat)

theorem forestMoved_eq (trees : List Tree) :
    forestMoved bytes trees = trees.map (Tree.moved bytes) := by
  induction trees with
  | nil => rfl
  | cons t rest ih => rw [forestMoved, ih, List.map_cons]

variable {kind : NodeKind} {text : String} {span : Span} {children : List Tree}

@[simp] theorem moved_node : (Tree.node kind text span children).moved bytes =
    .node kind text (span.moved bytes) (children.map (Tree.moved bytes)) := by
  rw [Tree.moved, forestMoved_eq]

@[simp] theorem moved_branch : (Tree.branch kind span children).moved bytes =
    .branch kind (span.moved bytes) (children.map (Tree.moved bytes)) := moved_node bytes

@[simp] theorem moved_leaf :
    (Tree.leaf kind text span).moved bytes = .leaf kind text (span.moved bytes) := moved_node bytes

@[simp] theorem moved_toLeaf (t : Token) :
    (t.toLeaf kind).moved bytes = (t.moved bytes).toLeaf kind := moved_node bytes

@[simp] theorem Tree.kind_moved (t : Tree) : (t.moved bytes).kind = t.kind := by
  cases t
  rw [moved_node]
  rfl

@[simp] theorem Tree.span_moved (t : Tree) : (t.moved bytes).span = t.span.moved bytes := by
  cases t
  rw [moved_node]
  rfl

@[simp] theorem Tree.children_moved (t : Tree) :
    (t.moved bytes).children = t.children.map (Tree.moved bytes) := by
  cases t
  rw [moved_node]
  rfl

theorem Tree.moved_zero (t : Tree) : t.moved 0 = t := by
  induction t with
  | node kind text span children ih =>
    rw [moved_node, Span.moved_zero, List.map_congr_left ih, List.map_id']

theorem declaratorEnd_moved (name : Tree) :
    declaratorEnd (name.moved bytes) = (declaratorEnd name).moved bytes := by
  rw [declaratorEnd, declaratorEnd, Tree.children_moved, List.getLast?_map, ← Tree.span_moved]
  cases name.children.getLast? <;> rfl

end Trees

/-- What does not change the tokens in front of it: nothing, or what starts with a line feed. -/
def Feeds (tail : List Char) : Prop := ∀ c ∈ tail.head?, c = '\n'

section Continued

variable {chars tail passed after : List Char} {gap : Gap} {offset : Nat} {r : Remainder}

/-- White space and comments that go on to the end go on to the line feed. -/
theorem Trivia.continued (h : Trivia passed after) (htail : Feeds tail) :
    Trivia passed (after ++ tail) := by
  induction h with
  | nothing => exact .nothing
  | blank hblank _ ih => exact .blank hblank ih
  | @line body passed after hbody hend _ ih =>
    refine .line hbody (fun c hc => ?_) ih
    rw [← List.append_assoc] at hc
    cases hrest : passed ++ after with
    | nil => exact htail c (by simpa [hrest] using hc)
    | cons d rest => exact hend c (by simpa [hrest] using hc)
  | block hbody _ ih => exact .block hbody ih

/-- Where a gap ended another one ends at once. -/
theorem skipGap_ended (h : skipGap gap offset chars = .ok r) (htail : Feeds tail)
    (hne : r.chars = [] → tail = []) (start : Nat) :
    skipGap .open start (r.chars ++ tail) = .ok ⟨start, r.chars ++ tail⟩ := by
  fun_induction skipGap gap offset chars with
  | case1 | case6 =>
    cases h
    obtain rfl : tail = [] := hne rfl
    rfl
  | case2 _ _ ih | case3 _ _ ih | case9 _ _ _ ih => exact ih h
  | case4 _ _ _ _ _ _ ih | case7 _ _ _ ih | case10 _ _ _ _ _ ih => exact ih h
  | case5 offset c rest hline hblock hblank =>
    cases h
    have hnext : ∀ mark more, mark ≠ '\n' → rest ++ tail = mark :: more →
        ∃ more, rest = mark :: more := by
      intro mark more hmark hmore
      cases rest with
      | nil => exact absurd (htail mark (by rw [List.nil_append] at hmore; rw [hmore]; rfl)) hmark
      | cons d rest => exact ⟨rest, by rw [(List.cons.inj hmore).1]⟩
    change skipGap .open start (c :: (rest ++ tail)) = _
    rw [skipGap, if_neg hblank]
    · rfl
    · rintro more rfl hmore
      obtain ⟨more, rfl⟩ := hnext '/' more (by decide) hmore
      exact hline more rfl rfl
    · rintro more rfl hmore
      obtain ⟨more, rfl⟩ := hnext '*' more (by decide) hmore
      exact hblock more rfl rfl
  | case8 => cases h

/-- The gap of a text is the gap of a moved one that goes on, if there are characters behind it or
nothing follows. -/
theorem skipGap_continued (h : skipGap .open offset chars = .ok r) (htail : Feeds tail)
    (hne : r.chars = [] → tail = []) (bytes : Nat) :
    skipGap .open (offset + bytes) (chars ++ tail) = .ok ⟨r.offset + bytes, r.chars ++ tail⟩ := by
  have hdrops := skipGap_drops .open offset chars
  rw [h] at hdrops
  cases hdrops with
  | @passed passed after hchars hpassed =>
    have htrivia : Trivia passed (after ++ tail) := Trivia.continued hpassed htail
    have hended := skipGap_ended h htail hne (offset + bytes + byteLength passed)
    rw [hchars, List.append_assoc, htrivia.skipGap]
    dsimp only at hended ⊢
    rw [hended, Nat.add_right_comm]

theorem takeWhile_continued {p : Char → Bool} (htail : Feeds tail) (hp : p '\n' = false) :
    (chars ++ tail).takeWhile p = chars.takeWhile p ∧
      (chars ++ tail).dropWhile p = chars.dropWhile p ++ tail := by
  induction chars with
  | nil =>
    cases tail with
    | nil => exact ⟨rfl, rfl⟩
    | cons c rest =>
      obtain rfl : c = '\n' := htail c rfl
      simp [hp]
  | cons c rest ih =>
    by_cases hc : p c
    · simp [hc, ih]
    · simp [hc]

theorem isPrefixOf?_continued {op : List Char} (hop : '\n' ∉ op) (htail : Feeds tail) :
    op.isPrefixOf? (chars ++ tail) = (op.isPrefixOf? chars).map (· ++ tail) := by
  induction op generalizing chars with
  | nil => simp [List.isPrefixOf?]
  | cons c op ih =>
    obtain ⟨hc, hrest⟩ := List.ne_and_not_mem_of_not_mem_cons hop
    cases chars with
    | nil =>
      cases tail with
      | nil => rfl
      | cons d rest =>
        obtain rfl : d = '\n' := htail d rfl
        simp [List.isPrefixOf?, Ne.symm hc]
    | cons d rest =>
      by_cases hd : c = d
      · simp [List.isPrefixOf?, hd, ih hrest]
      · simp [List.isPrefixOf?, hd]

theorem findSome?_continued {ops : List (List Char)} (hops : ∀ op ∈ ops, '\n' ∉ op)
    (htail : Feeds tail) :
    (ops.findSome? fun op => (op.isPrefixOf? (chars ++ tail)).map (Lexeme.mk .operator op ·)) =
      (ops.findSome? fun op => (op.isPrefixOf? chars).map (Lexeme.mk .operator op ·)).map
        fun l => { l with rest := l.rest ++ tail } := by
  induction ops with
  | nil => rfl
  | cons op rest ih =>
    obtain ⟨hop, hrest⟩ := List.forall_mem_cons.mp hops
    rw [List.findSome?_cons, List.findSome?_cons, isPrefixOf?_continued hop htail, ih hrest]
    cases op.isPrefixOf? chars <;> rfl

theorem cutOperator_continued {l : Lexeme} {c : Char} {rest : List Char}
    (h : cutOperator (c :: rest) = some l) (htail : Feeds tail) :
    cutOperator (c :: rest ++ tail) = some { l with rest := l.rest ++ tail } := by
  have hops : ∀ op ∈ operators, '\n' ∉ op := by decide
  unfold cutOperator at h ⊢
  rw [findSome?_continued hops htail]
  cases hfound : operators.findSome? fun op =>
      (op.isPrefixOf? (c :: rest)).map (Lexeme.mk .operator op ·) with
  | some found =>
    rw [hfound] at h
    cases h
    rfl
  | none =>
    rw [hfound] at h
    dsimp only [Option.map_none, List.cons_append] at h ⊢
    split at h <;> cases h
    · next heq =>
      obtain ⟨rfl, rfl⟩ := List.cons.inj heq
      rfl
    · next heq =>
      obtain ⟨rfl, rfl⟩ := List.cons.inj heq
      rfl

/-- The first lexeme of a text is that of every one that goes on. -/
theorem cut_continued {l : Lexeme} {c : Char} {rest : List Char} (h : cut (c :: rest) = .ok l)
    (htail : Feeds tail) : cut (c :: rest ++ tail) = .ok { l with rest := l.rest ++ tail } := by
  rw [List.cons_append, cut]
  rw [cut] at h
  split at h
  · next hstart =>
    cases h
    obtain ⟨htake, hdrop⟩ : _ ∧ _ := @takeWhile_continued rest _ isNamePart htail (by decide)
    rw [if_pos hstart, htake, hdrop]
  · next hstart =>
    rw [if_neg hstart]
    split at h
    · next hdigit =>
      cases h
      obtain ⟨htake, hdrop⟩ : _ ∧ _ := @takeWhile_continued rest _ isNumberPart htail (by decide)
      rw [if_pos hdigit, htake, hdrop]
    · next hdigit =>
      rw [if_neg hdigit]
      split at h
      · next hquote =>
        rw [if_pos hquote]
        split at h
        · next inner after hinner =>
          cases h
          rw [stringTail_more hinner tail]
        · cases h
      · next hquote =>
        rw [if_neg hquote]
        split at h
        · cases h
          rfl
        · split at h
          · next found hfound =>
            cases h
            rw [← List.cons_append, cutOperator_continued hfound htail]
          · cases h

/-- The next token of a text, and what is left behind it, in a moved text that goes on. -/
theorem scan_continued {t : Token} {behind : Remainder} (h : scan r = .ok (t, behind))
    (hkind : t.kind ≠ .endOfInput) (htail : Feeds tail) (bytes : Nat) :
    scan ⟨r.offset + bytes, r.chars ++ tail⟩ =
      .ok (t.moved bytes, ⟨behind.offset + bytes, behind.chars ++ tail⟩) := by
  rw [scan] at h
  split at h
  · cases h
  · next offset chars hgap =>
    split at h
    · cases h
    · next lexeme hcut =>
      cases h
      cases chars with
      | nil =>
        cases hcut
        exact absurd rfl hkind
      | cons c rest =>
        have hmoved := skipGap_continued hgap htail
          (fun h => absurd h (List.cons_ne_nil c rest)) bytes
        dsimp only at hmoved
        rw [scan]
        dsimp only
        rw [hmoved]
        dsimp only
        rw [cut_continued hcut htail, Token.moved, Span.moved, Nat.add_right_comm]
        rfl

/-- At the end of a text the scanner comes to what follows there. -/
theorem scan_end_continued {t : Token} {behind : Remainder} (h : scan r = .ok (t, behind))
    (hkind : t.kind = .endOfInput) (htail : Feeds tail) (bytes : Nat) :
    scan ⟨r.offset + bytes, r.chars ++ tail⟩ = scan ⟨t.span.start + bytes, tail⟩ := by
  obtain ⟨offset, hgap, hspan⟩ := skipGap_of_end h hkind
  have hdrops := skipGap_drops .open r.offset r.chars
  rw [hgap] at hdrops
  cases hdrops with
  | @passed passed _ hchars hpassed =>
    have htrivia : Trivia passed ([] ++ tail) := Trivia.continued hpassed htail
    have hskip : skipGap .open (r.offset + bytes) (r.chars ++ tail) =
        skipGap .open (r.offset + byteLength passed + bytes) tail := by
      rw [hchars, List.append_nil, Nat.add_right_comm]
      exact htrivia.skipGap
    simp only [scan, hspan, hskip]

/-- The tokens of a text are those of every moved text that goes on with a line feed, up to the end,
where the tokens of what comes there follow. -/
theorem Scans.continued {ts : List Token} {last : Token} {found : Scanned}
    (h : Scans r ⟨ts ++ [last], none⟩) (htail : Feeds tail) (bytes : Nat)
    (hfound : Scans ⟨last.span.start + bytes, tail⟩ found) :
    Scans ⟨r.offset + bytes, r.chars ++ tail⟩
      ⟨ts.map (Token.moved bytes) ++ found.tokens, found.fault⟩ := by
  generalize hscanned : (⟨ts ++ [last], none⟩ : Scanned) = scanned at h
  induction h generalizing ts with
  | fails =>
    cases ts <;> cases hscanned
  | @ends r _ t hscan hend =>
    obtain ⟨rfl, rfl⟩ : ts = [] ∧ last = t := by
      cases ts with
      | nil => exact ⟨rfl, by cases hscanned; rfl⟩
      | cons _ rest => cases rest <;> cases hscanned
    exact hfound.of_scan (scan_end_continued hscan hend htail bytes)
  | @goes r after t rest hscan hnot hrest ih =>
    cases ts with
    | nil =>
      cases hrest <;> cases hscanned
    | cons u ts =>
      obtain ⟨rfl, htokens⟩ := List.cons.inj (congrArg Scanned.tokens hscanned)
      have hfault := congrArg Scanned.fault hscanned
      have hmore : (⟨ts ++ [last], none⟩ : Scanned) = rest := by
        cases rest
        exact congrArg₂ Scanned.mk htokens hfault
      have hmoved := ih hmore
      exact .goes (scan_continued hscan hnot htail bytes) hnot hmoved

end Continued

end RefCheck.Script
