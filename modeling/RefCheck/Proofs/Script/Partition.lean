import Mathlib.Data.List.Chain
import RefCheck.Proofs.Script.Spelling
import RefCheck.Proofs.Text.Lines

/-!
# Tokens take a source apart

The scanner goes over a source once. What it passes between two tokens is white space and comments,
and what it takes for a token stands in the source where the token says, on whole characters. So the
tokens, with what is passed between them, are the source up to its end or up to where it cannot be
cut, and asking for one token after the other comes to an end (`tokenize_partition`).
-/

namespace RefCheck.Script

open RefCheck.Text

variable {chars passed after : List Char} {c : Char} {opened offset : Nat}

/-- White space and comments, in front of other characters. A line comment goes on to a line feed or
to the end, a block comment to the first `*/` behind its opening. -/
inductive Trivia : (passed after : List Char) → Prop
  | nothing {after : List Char} : Trivia [] after
  | blank {c : Char} {passed after : List Char} : isBlank c → Trivia passed after →
      Trivia (c :: passed) after
  | line {body passed after : List Char} : (∀ c ∈ body, c ≠ '\n') →
      (∀ c ∈ (passed ++ after).head?, c = '\n') → Trivia passed after →
      Trivia ('/' :: '/' :: (body ++ passed)) after
  | block {body passed after : List Char} : ¬ ['*', '/'] <:+: body ++ ['*'] →
      Trivia passed after → Trivia ('/' :: '*' :: (body ++ '*' :: '/' :: passed)) after

/-- What is passed from inside a gap on: the rest of the comment, if it is one, and what comes
behind that. -/
def Gap.Passes : Gap → (passed after : List Char) → Prop
  | .open, passed, after => Trivia passed after
  | .line, passed, after => ∃ body more, passed = body ++ more ∧ (∀ c ∈ body, c ≠ '\n') ∧
      (∀ c ∈ (more ++ after).head?, c = '\n') ∧ Trivia more after
  | .block _, passed, after => ∃ body more, passed = body ++ '*' :: '/' :: more ∧
      ¬ ['*', '/'] <:+: body ++ ['*'] ∧ Trivia more after

theorem Gap.passes_line (h : Gap.line.Passes passed after) :
    Trivia ('/' :: '/' :: passed) after := by
  obtain ⟨body, more, rfl, hbody, hend, hmore⟩ := h
  exact .line hbody hend hmore

theorem Gap.passes_block (h : (Gap.block opened).Passes passed after) :
    Trivia ('/' :: '*' :: passed) after := by
  obtain ⟨body, more, rfl, hbody, hmore⟩ := h
  exact .block hbody hmore

/-- A line comment goes on to a line feed, which is white space. -/
theorem Gap.passes_line_cons
    (h : (if c = '\n' then Gap.open else Gap.line).Passes passed after) :
    Gap.line.Passes (c :: passed) after := by
  split at h
  · next hfeed =>
    subst hfeed
    exact ⟨[], '\n' :: passed, rfl, List.forall_mem_nil _, by simp, .blank (by decide) h⟩
  · next hfeed =>
    obtain ⟨body, more, rfl, hbody, hend, hmore⟩ := h
    exact ⟨c :: body, more, rfl, List.forall_mem_cons.mpr ⟨hfeed, hbody⟩, hend, hmore⟩

theorem Gap.passes_block_close (h : Trivia passed after) :
    (Gap.block opened).Passes ('*' :: '/' :: passed) after :=
  ⟨[], passed, rfl, by decide, h⟩

/-- A block comment goes on where it is not closed. -/
theorem Gap.passes_block_cons (hopen : ∀ rest, c = '*' → passed ++ after = '/' :: rest → False)
    (h : (Gap.block opened).Passes passed after) :
    (Gap.block opened).Passes (c :: passed) after := by
  obtain ⟨body, more, rfl, hbody, hmore⟩ := h
  refine ⟨c :: body, more, rfl, fun hinfix => ?_, hmore⟩
  rw [List.cons_append, List.infix_cons_iff] at hinfix
  rcases hinfix with hprefix | hinfix
  · obtain ⟨rfl, hnext⟩ := List.cons_prefix_cons.mp hprefix
    cases body with
    | nil => exact absurd hnext (by decide)
    | cons d body =>
      obtain ⟨rfl, -⟩ := List.cons_prefix_cons.mp hnext
      exact hopen _ rfl rfl
  · exact hbody hinfix

/-- What dropping a gap comes to: what is left behind it, or an error that goes from the opening of
a comment to the end. The comment opens behind what is passed, unless the gap starts inside it. -/
inductive Gap.Drops (gap : Gap) (offset : Nat) (chars : List Char) :
    Except SyntaxError Remainder → Prop
  | passed {passed after : List Char} : chars = passed ++ after → gap.Passes passed after →
      Drops gap offset chars (.ok ⟨offset + byteLength passed, after⟩)
  | unclosed {passed bad : List Char} : chars = passed ++ bad → gap.Passes passed bad →
      Drops gap offset chars (.error ⟨.unterminatedComment,
        ⟨offset + byteLength passed, offset + byteLength chars⟩⟩)
  | inside {opened : Nat} : gap = .block opened →
      Drops gap offset chars (.error ⟨.unterminatedComment,
        ⟨opened, offset + byteLength chars⟩⟩)

/-- One step of a gap: it takes some characters and goes on as `next`. -/
theorem Gap.Drops.step {gap next : Gap} {found : Except SyntaxError Remainder}
    (taken : List Char) (h : next.Drops (offset + byteLength taken) chars found)
    (hpasses : ∀ passed after, chars = passed ++ after → next.Passes passed after →
      gap.Passes (taken ++ passed) after)
    (hinside : ∀ opened, next = .block opened →
      gap = .block opened ∨ opened = offset ∧ gap.Passes [] (taken ++ chars)) :
    gap.Drops offset (taken ++ chars) found := by
  cases h with
  | passed hchars hnext =>
    rw [Nat.add_assoc, ← byteLength_append]
    exact .passed (by rw [hchars, List.append_assoc]) (hpasses _ _ hchars hnext)
  | unclosed hchars hnext =>
    rw [Nat.add_assoc, Nat.add_assoc, ← byteLength_append, ← byteLength_append]
    exact .unclosed (by rw [hchars, List.append_assoc]) (hpasses _ _ hchars hnext)
  | inside hnext =>
    rw [Nat.add_assoc, ← byteLength_append]
    rcases hinside _ hnext with hgap | ⟨rfl, hgap⟩
    · exact .inside hgap
    · exact .unclosed (List.nil_append _).symm hgap

theorem skipGap_drops (gap : Gap) (offset : Nat) (chars : List Char) :
    gap.Drops offset chars (skipGap gap offset chars) := by
  fun_induction skipGap gap offset chars with
  | case1 | case5 => exact .passed (List.nil_append _).symm Trivia.nothing
  | case6 =>
    have hend : Gap.line.Passes [] [] :=
      ⟨[], [], rfl, List.forall_mem_nil _, by simp, .nothing⟩
    exact .passed rfl hend
  | case8 => exact .inside rfl
  | case2 offset rest ih =>
    exact Gap.Drops.step ['/', '/'] ih (fun _ _ _ => Gap.passes_line) (fun _ h => by cases h)
  | case3 offset rest ih =>
    refine Gap.Drops.step ['/', '*'] ih (fun _ _ _ => Gap.passes_block) fun opened h => .inr ?_
    cases h
    exact ⟨rfl, .nothing⟩
  | case4 offset c rest _ _ hblank ih =>
    exact Gap.Drops.step [c] ih (fun _ _ _ => Trivia.blank hblank) (fun _ h => by cases h)
  | case7 offset c rest ih =>
    refine Gap.Drops.step [c] ih (fun _ _ _ => Gap.passes_line_cons) fun opened h => ?_
    split at h <;> cases h
  | case9 opened offset rest ih =>
    exact Gap.Drops.step ['*', '/'] ih (fun _ _ _ => Gap.passes_block_close) (fun _ h => by cases h)
  | case10 opened offset c rest hopen ih =>
    refine Gap.Drops.step [c] ih (fun passed after hchars => ?_) fun _ h => .inl h
    exact Gap.passes_block_cons fun rest hc hrest => hopen rest hc (hchars.trans hrest)

section Passed

variable {body : List Char}

/-- From inside a line comment the gap goes on where the line ends. -/
theorem skipGap_line (hbody : ∀ c ∈ body, c ≠ '\n') (hend : ∀ c ∈ after.head?, c = '\n') :
    skipGap .line offset (body ++ after) = skipGap .open (offset + byteLength body) after := by
  induction body generalizing offset with
  | nil =>
    cases after with
    | nil => rfl
    | cons c rest =>
      obtain rfl : c = '\n' := hend c rfl
      rfl
  | cons c rest ih =>
    obtain ⟨hc, hrest⟩ := List.forall_mem_cons.mp hbody
    rw [List.cons_append, skipGap, if_neg hc, ih hrest, byteLength, Nat.add_assoc]

/-- From inside a block comment the gap goes on behind the first `*/`. -/
theorem skipGap_block (hbody : ¬ ['*', '/'] <:+: body ++ ['*']) :
    skipGap (.block opened) offset (body ++ '*' :: '/' :: after) =
      skipGap .open (offset + byteLength body + 2) after := by
  induction body generalizing offset with
  | nil => rfl
  | cons c rest ih =>
    rw [List.cons_append, List.infix_cons_iff, not_or] at hbody
    have hopen : ∀ tail, c = '*' → rest ++ '*' :: '/' :: after = '/' :: tail → False := by
      rintro tail rfl htail
      refine hbody.1 (List.cons_prefix_cons.mpr ⟨rfl, ?_⟩)
      cases rest with
      | nil => cases htail
      | cons d rest =>
        obtain rfl : d = '/' := (List.cons.inj htail).1
        exact List.cons_prefix_cons.mpr ⟨rfl, List.nil_prefix⟩
    rw [List.cons_append, skipGap, ih hbody.2, byteLength]
    · simp only [Nat.add_assoc]
    · exact hopen

/-- White space and comments are dropped, whatever comes behind them. -/
theorem Trivia.skipGap (h : Trivia passed after) :
    skipGap .open offset (passed ++ after) =
      skipGap .open (offset + byteLength passed) after := by
  induction h generalizing offset with
  | nothing => rfl
  | @blank c passed after hblank _ ih =>
    have hslash : c ≠ '/' := by
      rintro rfl
      cases hblank
    rw [List.cons_append, Script.skipGap, if_pos hblank, ih, byteLength, Nat.add_assoc]
    · rintro _ rfl
      exact absurd rfl hslash
    · rintro _ rfl
      exact absurd rfl hslash
  | @line body passed after hbody hend _ ih =>
    have hopen : Script.skipGap .open offset ('/' :: '/' :: (body ++ passed) ++ after) =
        Script.skipGap .line (offset + 2) (body ++ (passed ++ after)) := by
      rw [← List.append_assoc]
      rfl
    have hbytes : offset + byteLength ('/' :: '/' :: (body ++ passed)) =
        offset + 2 + byteLength body + byteLength passed := by
      simp only [byteLength, byteLength_append, show '/'.utf8Size = 1 from rfl]
      omega
    rw [hopen, skipGap_line hbody hend, ih, hbytes]
  | @block body passed after hbody _ ih =>
    have happend : body ++ '*' :: '/' :: (passed ++ after) =
        (body ++ '*' :: '/' :: passed) ++ after := by simp
    have hopen : Script.skipGap .open offset
        ('/' :: '*' :: (body ++ '*' :: '/' :: passed) ++ after) =
          Script.skipGap (.block offset) (offset + 2)
            (body ++ '*' :: '/' :: (passed ++ after)) := by
      rw [happend]
      rfl
    have hbytes : offset + byteLength ('/' :: '*' :: (body ++ '*' :: '/' :: passed)) =
        offset + 2 + byteLength body + 2 + byteLength passed := by
      simp only [byteLength, byteLength_append, show '/'.utf8Size = 1 from rfl,
        show '*'.utf8Size = 1 from rfl]
      omega
    rw [hopen, skipGap_block hbody, ih, hbytes]

end Passed

section Token

variable {source : List Char} {r behind : Remainder} {t : Token} {e : SyntaxError}

/-- White space and comments stand in a source from one offset to another. -/
def GapAt (source : List Char) (start stop : Nat) : Prop :=
  ∃ before gap after, source = before ++ gap ++ after ∧ start = byteLength before ∧
    stop = start + byteLength gap ∧ Trivia gap after

/-- What a token is cut from: its text, and around the text of a string the same quote twice. -/
def Token.IsFrom (t : Token) (word : List Char) : Prop :=
  if t.kind = .string then
    ∃ quote, (quote = '"' ∨ quote = '\x27') ∧ word = quote :: (t.text.toList ++ [quote])
  else word = t.text.toList

theorem OccursAt.bounds {span : Span} (h : OccursAt source span chars) :
    span.start ≤ span.stop ∧ span.stop ≤ byteLength source := by
  obtain ⟨before, after, rfl, rfl⟩ := h
  simp

theorem gapAt_of_passed (hof : r.Of source) (hchars : r.chars = passed ++ after)
    (hpassed : Trivia passed after) : GapAt source r.offset (r.offset + byteLength passed) := by
  obtain ⟨before, hsource, hoffset⟩ := hof
  exact ⟨before, passed, after, by rw [hsource, hchars, List.append_assoc], hoffset, rfl, hpassed⟩

theorem Remainder.Of.occursAt (hof : r.Of source) {word : List Char}
    (hchars : r.chars = word ++ after) :
    OccursAt source ⟨r.offset, r.offset + byteLength word⟩ word := by
  obtain ⟨before, hsource, hoffset⟩ := hof
  exact ⟨before, after, by rw [hsource, hchars, List.append_assoc], by rw [hoffset]⟩

theorem gapAt_of_skipGap {found : Remainder} (h : skipGap .open r.offset r.chars = .ok found)
    (hof : r.Of source) : GapAt source r.offset found.offset := by
  have hdrops := skipGap_drops .open r.offset r.chars
  rw [h] at hdrops
  cases hdrops with
  | passed hchars hpassed => exact gapAt_of_passed hof hchars hpassed

/-- A comment that is not closed spans what is left behind the gap. -/
theorem skipGap_error (h : skipGap .open r.offset r.chars = .error e) (hof : r.Of source) :
    GapAt source r.offset e.span.start ∧ ∃ bad, OccursAt source e.span bad := by
  have hdrops := skipGap_drops .open r.offset r.chars
  rw [h] at hdrops
  cases hdrops with
  | @unclosed passed bad hchars hpassed =>
    refine ⟨gapAt_of_passed hof hchars hpassed, bad, ?_⟩
    have hleft : Remainder.Of source ⟨r.offset + byteLength passed, bad⟩ :=
      Remainder.Of.drop passed (hchars ▸ hof)
    have hoccurs := hleft.occursAt (List.append_nil bad).symm
    rw [hchars, byteLength_append, ← Nat.add_assoc]
    exact hoccurs
  | inside hgap => cases hgap

/-- What cannot be cut is the first character or all characters. -/
theorem faultSpan_of_cut {fault : Fault} (h : cut chars = .error fault) (offset : Nat) :
    ∃ bad rest, chars = bad ++ rest ∧
      faultSpan offset chars fault = ⟨offset, offset + byteLength bad⟩ := by
  unfold cut at h
  split at h
  · cases h
  · next c rest =>
    split at h
    · cases h
    · split at h
      · cases h
      · split at h
        · split at h
          · cases h
          · cases h
            exact ⟨c :: rest, [], (List.append_nil _).symm, rfl⟩
        · split at h
          · cases h
          · split at h
            · cases h
            · cases h
              exact ⟨[c], rest, rfl, rfl⟩

theorem isFrom_of_cut {l : Lexeme} (h : cut chars = .ok l) (span : Span) :
    Token.IsFrom ⟨l.kind, String.ofList l.text, span⟩ l.chars := by
  rw [Token.IsFrom]
  split
  · next hstring =>
    have hstring : l.kind = .string := hstring
    rcases spells_of_cut h with ⟨hend, -⟩ | hspells
    · rw [hstring] at hend
      cases hend
    · rw [hstring] at hspells
      obtain ⟨quote, tail, hchars, hquote, htail⟩ := hspells.quoted
      obtain ⟨text, rfl, -⟩ := stringTail_requoted htail
      refine ⟨quote, hquote, ?_⟩
      simp [Lexeme.text, hstring, hchars]
  · next hstring =>
    rw [String.toList_ofList]
    exact (if_neg hstring).symm

/-- A token stands behind a gap, on the characters it is cut from. Only the end of input takes
none. -/
theorem scan_occursAt (h : scan r = .ok (t, behind)) (hof : r.Of source) :
    GapAt source r.offset t.span.start ∧ (∃ word, OccursAt source t.span word ∧ t.IsFrom word) ∧
      (t.kind ≠ .endOfInput → t.span.start < t.span.stop) := by
  rw [scan] at h
  split at h
  · cases h
  · next offset chars hgap =>
    split at h
    · cases h
    · next lexeme hcut =>
      cases h
      refine ⟨gapAt_of_skipGap hgap hof,
        ⟨lexeme.chars, (skipGap_of hgap hof).occursAt (cut_spec hcut).1.symm,
          isFrom_of_cut hcut _⟩, fun hkind => ?_⟩
      have hspells := (spells_of_cut hcut).resolve_left fun h => hkind h.1
      have hpos := List.length_pos_iff.mpr hspells.ne_nil
      have hbytes := length_le_byteLength lexeme.chars
      exact Nat.lt_add_of_pos_right (Nat.lt_of_lt_of_le hpos hbytes)

/-- An error of the scanner stands behind a gap, on characters of the source. -/
theorem scan_error (h : scan r = .error e) (hof : r.Of source) :
    GapAt source r.offset e.span.start ∧ ∃ bad, OccursAt source e.span bad := by
  rw [scan] at h
  split at h
  · next hgap =>
    cases h
    exact skipGap_error hgap hof
  · next offset chars hgap =>
    split at h
    · next fault hcut =>
      cases h
      obtain ⟨bad, rest, hchars, hspan⟩ := faultSpan_of_cut hcut offset
      refine ⟨?_, bad, ?_⟩
      · rw [hspan]
        exact gapAt_of_skipGap hgap hof
      · rw [hspan]
        exact (skipGap_of hgap hof).occursAt hchars
    · cases h

end Token

/-- What comes of asking for one token after the other: an error, or the end of input behind other
tokens. -/
inductive Scans : Remainder → Scanned → Prop
  | fails {r : Remainder} {e : SyntaxError} : scan r = .error e → Scans r ⟨[], some e⟩
  | ends {r after : Remainder} {t : Token} : scan r = .ok (t, after) → t.kind = .endOfInput →
      Scans r ⟨[t], none⟩
  | goes {r after : Remainder} {t : Token} {found : Scanned} : scan r = .ok (t, after) →
      t.kind ≠ .endOfInput → Scans after found → Scans r ⟨t :: found.tokens, found.fault⟩

theorem scans_scanUpTo (fuel : Nat) {r : Remainder} (hfuel : r.chars.length < fuel) :
    Scans r (scanUpTo fuel r) := by
  induction fuel generalizing r with
  | zero => exact absurd hfuel (Nat.not_lt_zero _)
  | succ fuel ih =>
    rw [scanUpTo]
    cases hscan : scan r with
    | error e => exact .fails hscan
    | ok next =>
      obtain ⟨token, after⟩ := next
      obtain ⟨-, -, -, hless⟩ := scan_forward hscan
      dsimp only
      by_cases hend : token.kind = .endOfInput
      · rw [if_pos hend]
        exact .ends hscan hend
      · rw [if_neg hend]
        exact .goes hscan hend (ih (by have := hless hend; omega))

theorem Scans.unique {r : Remainder} {found other : Scanned} (h : Scans r found)
    (hother : Scans r other) : found = other := by
  induction h generalizing other with
  | fails hscan =>
    cases hother with
    | fails hagain =>
      cases hscan.symm.trans hagain
      rfl
    | ends hagain | goes hagain => cases hscan.symm.trans hagain
  | ends hscan hend =>
    cases hother with
    | fails hagain => cases hscan.symm.trans hagain
    | ends hagain =>
      cases hscan.symm.trans hagain
      rfl
    | goes hagain hnot =>
      cases hscan.symm.trans hagain
      exact absurd hend hnot
  | goes hscan hnot _ ih =>
    cases hother with
    | fails hagain => cases hscan.symm.trans hagain
    | ends hagain hend =>
      cases hscan.symm.trans hagain
      exact absurd hend hnot
    | goes hagain _ hrest =>
      cases hscan.symm.trans hagain
      rw [ih hrest]

/-- What comes of it depends on the next token and on what is left behind that only. -/
theorem Scans.of_scan {r r' : Remainder} {found : Scanned} (h : Scans r found)
    (hscan : scan r' = scan r) : Scans r' found := by
  cases h with
  | fails h => exact .fails (hscan.trans h)
  | ends h hend => exact .ends (hscan.trans h) hend
  | goes h hnot hrest => exact .goes (hscan.trans h) hnot hrest

/-- The spans of the tokens, and behind them that of the error, if there is one. -/
def Scanned.spans (found : Scanned) : List Span :=
  found.tokens.map Token.span ++ found.fault.toList.map SyntaxError.span

/-- Tokens take a source apart from an offset on. They go on to the end of input or to an error;
each but the end of input takes a byte at least, and starts and ends before the next one starts;
each stands in the source on the characters it is cut from; what is passed in front of each, and in
front of the error, is white space and comments; and the end of input is the end of the source. -/
structure Scanned.Partition (source : List Char) (start : Nat) (found : Scanned) : Prop where
  complete : Sealed found.fault found.tokens
  solid : ∀ t ∈ found.tokens, t.kind ≠ .endOfInput → t.span.start < t.span.stop
  ordered : found.tokens.Pairwise fun t u =>
    t.span.start < u.span.start ∧ t.span.stop ≤ u.span.start
  inside : ∀ span ∈ found.spans, span.start ≤ span.stop ∧ span.stop ≤ byteLength source
  occurs : ∀ t ∈ found.tokens, ∃ word, OccursAt source t.span word ∧ t.IsFrom word
  passed : (⟨start, start⟩ :: found.spans).IsChain fun a b => GapAt source a.stop b.start
  finish : ∀ t ∈ found.tokens, t.kind = .endOfInput →
    t.span = ⟨byteLength source, byteLength source⟩
  fault : ∀ e ∈ found.fault, ∃ bad, OccursAt source e.span bad

variable {source : List Char} {r : Remainder} {found : Scanned}

/-- No token starts before what was left when it was asked for. -/
theorem Scans.behind (h : Scans r found) : ∀ t ∈ found.tokens, r.offset ≤ t.span.start := by
  induction h with
  | fails => exact List.forall_mem_nil _
  | ends hscan => exact List.forall_mem_singleton.mpr (scan_forward hscan).1
  | goes hscan _ _ ih =>
    obtain ⟨hstart, hspan, hstop, -⟩ := scan_forward hscan
    exact List.forall_mem_cons.mpr ⟨hstart, fun u hu => by have := ih u hu; omega⟩

theorem Scans.partition (h : Scans r found) (hof : r.Of source) :
    found.Partition source r.offset := by
  induction h with
  | @fails r e hscan =>
    obtain ⟨hgap, bad, hbad⟩ := scan_error hscan hof
    exact {
      complete := Option.some_ne_none e
      solid := List.forall_mem_nil _
      ordered := List.Pairwise.nil
      inside := List.forall_mem_singleton.mpr hbad.bounds
      occurs := List.forall_mem_nil _
      passed := List.isChain_pair.mpr hgap
      finish := List.forall_mem_nil _
      fault := fun _ he => Option.some.inj he ▸ ⟨bad, hbad⟩ }
  | @ends r after t hscan hend =>
    obtain ⟨hgap, ⟨word, hword, hfrom⟩, -⟩ := scan_occursAt hscan hof
    exact {
      complete := (if_pos hend).mpr ⟨rfl, rfl⟩
      solid := List.forall_mem_singleton.mpr fun hnot => absurd hend hnot
      ordered := List.pairwise_singleton _ _
      inside := List.forall_mem_singleton.mpr hword.bounds
      occurs := List.forall_mem_singleton.mpr ⟨word, hword, hfrom⟩
      passed := List.isChain_pair.mpr hgap
      finish := List.forall_mem_singleton.mpr fun _ => scan_end hscan hend hof
      fault := fun _ he => absurd he (Option.not_mem_none _) }
  | @goes r after t found hscan hnot hrest ih =>
    obtain ⟨hgap, ⟨word, hword, hfrom⟩, hsolid⟩ := scan_occursAt hscan hof
    obtain ⟨-, -, hstop, -⟩ := scan_forward hscan
    have hpart := ih (scan_cutFrom hscan hof).2
    exact {
      complete := (if_neg hnot).mpr hpart.complete
      solid := List.forall_mem_cons.mpr ⟨hsolid, hpart.solid⟩
      ordered := List.pairwise_cons.mpr ⟨fun u hu => by
        have hbehind := hrest.behind u hu
        have hbytes := hsolid hnot
        omega, hpart.ordered⟩
      inside := List.forall_mem_cons.mpr ⟨hword.bounds, hpart.inside⟩
      occurs := List.forall_mem_cons.mpr ⟨⟨word, hword, hfrom⟩, hpart.occurs⟩
      passed := by
        obtain ⟨hnext, hchain⟩ := List.isChain_cons.mp hpart.passed
        refine List.isChain_cons_cons.mpr ⟨hgap, List.isChain_cons.mpr ⟨fun b hb => ?_, hchain⟩⟩
        exact hstop ▸ hnext b hb
      finish := List.forall_mem_cons.mpr ⟨fun hend => absurd hend hnot, hpart.finish⟩
      fault := hpart.fault }

/-- The scanner takes every source apart: asking for one token after the other comes to an end, with
just the tokens of the source, and these are a partition of it. -/
theorem tokenize_partition (source : String) :
    (∀ found, Scans ⟨0, source.toList⟩ found ↔ found = tokenize source) ∧
      (tokenize source).Partition source.toList 0 := by
  have hscans : Scans ⟨0, source.toList⟩ (tokenize source) :=
    scans_scanUpTo _ (Nat.lt_succ_self _)
  refine ⟨fun found => ⟨fun hfound => hfound.unique hscans, ?_⟩, hscans.partition ⟨[], rfl, rfl⟩⟩
  rintro rfl
  exact hscans

end RefCheck.Script
