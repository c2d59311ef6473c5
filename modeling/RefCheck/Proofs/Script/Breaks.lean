import RefCheck.Proofs.Script.Partition

/-!
# Line comments, strings and the ends of lines

For the scanner a line ends at a line feed only, for the line map also at a carriage return alone.
So a line comment or a string without a backslash stays on the line it starts on exactly when no
carriage return stands inside it (`staysOnLine_iff`), and a comment with one hides what the next
line says.
-/

namespace RefCheck.Text

open LineMap

variable {source : String} {before rest cs after : List Char} {offset : Nat}

/-- Every byte of a span is on the line of its first byte. -/
def StaysOnLine (source : String) (span : Span) : Prop :=
  ∀ offset, span.start ≤ offset → offset < span.stop →
    (ofSource source).lineOf offset = (ofSource source).lineOf span.start

/-- The line of an offset is counted from any place before it, unless the place is between a
carriage return and its line feed. -/
theorem lineOf_behind (hsource : source.toList = before ++ rest)
    (hseam : before.getLast? = some '\r' → rest.head? ≠ some '\n')
    (hoffset : byteLength before ≤ offset) :
    (ofSource source).lineOf offset =
      lineEnds before + ((startsAfter (byteLength before) rest).takeWhile (· ≤ offset)).length := by
  have hearlier : ∀ x ∈ 0 :: startsAfter 0 before, decide (x ≤ offset) = true := by
    intro x hx
    rcases List.mem_cons.mp hx with rfl | hx
    · simp
    · have hbound := bounds_of_mem_startsAfter hx
      simp only [decide_eq_true_eq]
      omega
  have hstarts : (ofSource source).starts =
      (0 :: startsAfter 0 before) ++ startsAfter (byteLength before) rest := by
    rw [ofSource, hsource, startsAfter_append hseam, Nat.zero_add]
    rfl
  rw [lineOf, hstarts, List.takeWhile_append_of_pos hearlier, List.length_append,
    IsLine.length_starts]
  omega

/-- In characters without a line feed the first line ends at the first carriage return, and that
leaves some of them on the next line unless it is the last one. -/
theorem head?_startsAfter_lt (hfeed : '\n' ∉ cs) :
    (∃ x ∈ (startsAfter offset (cs ++ after)).head?, x < offset + byteLength cs) ↔
      '\r' ∈ cs.dropLast := by
  have hbehind : ∀ {offset : Nat} {chars : List Char} {x : Nat},
      x ∈ (startsAfter offset chars).head? → offset < x := fun hx =>
    (bounds_of_mem_startsAfter (List.mem_of_mem_head? hx)).1
  induction cs generalizing offset with
  | nil =>
    refine ⟨?_, fun h => absurd h List.not_mem_nil⟩
    rintro ⟨x, hx, hlt⟩
    exact absurd (hbehind hx) (Nat.not_lt.mpr (Nat.le_of_lt hlt))
  | cons c rest ih =>
    obtain ⟨hc, hrest⟩ := List.ne_and_not_mem_of_not_mem_cons hfeed
    rw [List.cons_append, startsAfter]
    cases rest with
    | nil =>
      -- Whatever starts behind the only character is not before its end.
      refine ⟨?_, fun h => absurd h List.not_mem_nil⟩
      rintro ⟨x, hx, hlt⟩
      have hx : offset + c.utf8Size ≤ x := by
        split at hx
        · exact Nat.le_of_eq (Option.some.inj hx)
        · exact Nat.le_of_lt (hbehind hx)
      exact absurd hlt (Nat.not_lt.mpr hx)
    | cons d rest =>
      obtain ⟨hd, -⟩ := List.ne_and_not_mem_of_not_mem_cons hrest
      have hsum : offset + byteLength (c :: d :: rest) =
          offset + c.utf8Size + byteLength (d :: rest) := (Nat.add_assoc _ _ _).symm
      rw [List.dropLast_cons_cons, List.mem_cons, hsum]
      by_cases hreturn : c = '\r'
      · have hpos : 0 < byteLength (d :: rest) := Nat.add_pos_left d.utf8Size_pos _
        have hbreak :
            (c = '\n' || (c = '\r' && (d :: rest ++ after).head? ≠ some '\n')) = true := by
          simp [hreturn, Ne.symm hd]
        rw [if_pos hbreak]
        exact ⟨fun _ => .inl hreturn.symm, fun _ => ⟨_, rfl, by omega⟩⟩
      · have hplain :
            ¬ (c = '\n' || (c = '\r' && (d :: rest ++ after).head? ≠ some '\n')) = true := by
          simp [hreturn, Ne.symm hc]
        rw [if_neg hplain]
        exact (ih hrest).trans ⟨.inr, fun h => h.resolve_left (Ne.symm hreturn)⟩

/-- Characters without a line feed stay on their line unless a carriage return stands before the
last of them. -/
theorem staysOnLine_of_noFeed (hsource : source.toList = before ++ (cs ++ after)) (hne : cs ≠ [])
    (hfeed : '\n' ∉ cs) :
    StaysOnLine source ⟨byteLength before, byteLength before + byteLength cs⟩ ↔
      '\r' ∉ cs.dropLast := by
  have hseam : before.getLast? = some '\r' → (cs ++ after).head? ≠ some '\n' := by
    intro _ hhead
    rw [List.head?_append_of_ne_nil _ hne] at hhead
    exact hfeed (List.mem_of_head? hhead)
  have hline : ∀ offset, byteLength before ≤ offset →
      ((ofSource source).lineOf offset = (ofSource source).lineOf (byteLength before) ↔
        ∀ x ∈ (startsAfter (byteLength before) (cs ++ after)).head?, offset < x) := by
    intro offset hoffset
    rw [lineOf_behind hsource hseam hoffset, lineOf_behind hsource hseam (Nat.le_refl _)]
    cases hstarts : startsAfter (byteLength before) (cs ++ after) with
    | nil => simp
    | cons x later =>
      have hx := (bounds_of_mem_startsAfter (hstarts ▸ List.mem_cons_self)).1
      have hfirst : ¬ x ≤ byteLength before := Nat.not_le.mpr hx
      by_cases hlt : offset < x
      · simp [hfirst, Nat.not_le.mpr hlt, hlt]
      · simp [hfirst, Nat.not_lt.mp hlt, hlt]
  have hbreak : (∃ x ∈ (startsAfter (byteLength before) (cs ++ after)).head?,
      x < byteLength before + byteLength cs) ↔ '\r' ∈ cs.dropLast := head?_startsAfter_lt hfeed
  rw [← hbreak]
  constructor
  · rintro hstays ⟨x, hx, hlt⟩
    have hstart := (bounds_of_mem_startsAfter (List.mem_of_mem_head? hx)).1
    have hsame := hstays x (Nat.le_of_lt hstart) hlt
    exact Nat.lt_irrefl x ((hline x (Nat.le_of_lt hstart)).mp hsame x hx)
  · intro hnone offset hstart hstop
    refine (hline offset hstart).mpr fun x hx => Nat.not_le.mp fun hle => ?_
    exact hnone ⟨x, hx, Nat.lt_of_le_of_lt hle hstop⟩

end RefCheck.Text

namespace RefCheck.Script

open RefCheck.Text

/-- The places of a source where the scanner is asked for a token. -/
inductive Asked (source : String) : Remainder → Prop
  | first : Asked source ⟨0, source.toList⟩
  | next {r after : Remainder} {t : Token} : Asked source r → scan r = .ok (t, after) →
      Asked source after

/-- A line comment that the scanner passes, with what it says behind `//`: it stands behind white
space and other comments where a token is asked for, and goes on to a line feed or to the end. -/
inductive LineComment (source : String) : Span → List Char → Prop
  | passed {r : Remainder} {lead body after : List Char} : Asked source r →
      r.chars = lead ++ '/' :: '/' :: (body ++ after) →
      Trivia lead ('/' :: '/' :: (body ++ after)) → (∀ c ∈ body, c ≠ '\n') →
      (∀ c ∈ after.head?, c = '\n') →
      LineComment source
        ⟨r.offset + byteLength lead, r.offset + byteLength lead + (2 + byteLength body)⟩ body

section Stays

variable {source : String}

theorem Asked.of {r : Remainder} (h : Asked source r) : r.Of source.toList := by
  induction h with
  | first => exact ⟨[], rfl, rfl⟩
  | next _ hscan ih => exact (scan_cutFrom hscan ih).2

theorem byteLength_opened (body : List Char) :
    byteLength ('/' :: '/' :: body) = 2 + byteLength body := by
  simp only [byteLength, show '/'.utf8Size = 1 from rfl]
  omega

/-- The scanner goes on at the end of a line comment. -/
theorem LineComment.passes {span : Span} {body : List Char} (h : LineComment source span body) :
    ∃ r after, Asked source r ∧ Remainder.Of source.toList ⟨span.stop, after⟩ ∧
      skipGap .open r.offset r.chars = skipGap .open span.stop after := by
  obtain @⟨r, lead, body, after, hasked, hchars, hlead, hbody, hend⟩ := h
  have hof : Remainder.Of source.toList
      ⟨r.offset, lead ++ (('/' :: '/' :: body) ++ after)⟩ := hchars ▸ hasked.of
  have hstop := hof.drop.drop
  rw [byteLength_opened] at hstop
  refine ⟨r, after, hasked, hstop, ?_⟩
  have hopen : skipGap .open (r.offset + byteLength lead) ('/' :: '/' :: (body ++ after)) =
      skipGap .line (r.offset + byteLength lead + 2) (body ++ after) := rfl
  rw [hchars, hlead.skipGap, hopen, skipGap_line hbody hend, Nat.add_assoc _ 2]

theorem LineComment.stays_iff {span : Span} {body : List Char}
    (h : LineComment source span body) : StaysOnLine source span ↔ '\r' ∉ body.dropLast := by
  obtain @⟨r, lead, body, after, hasked, hchars, hlead, hbody, hend⟩ := h
  obtain ⟨before, hsource, hoffset⟩ := hasked.of
  have hwhole : source.toList = (before ++ lead) ++ (('/' :: '/' :: body) ++ after) := by
    rw [hsource, hchars]
    simp
  have hfeed : '\n' ∉ '/' :: '/' :: body := by
    simpa using fun hmem => hbody '\n' hmem rfl
  have hstays := staysOnLine_of_noFeed hwhole (List.cons_ne_nil _ _) hfeed
  rw [byteLength_append, ← hoffset, byteLength_opened] at hstays
  rw [hstays]
  cases body <;> simp

/-- A line feed in a string stands behind a backslash. -/
theorem stringTail_noFeed {quote : Char} {escaped : Bool} {chars tail after : List Char}
    (hquote : quote ≠ '\n') (h : stringTail quote escaped chars = some (tail, after))
    (hescaped : escaped = false) (hplain : '\\' ∉ tail) : '\n' ∉ tail := by
  fun_induction stringTail quote escaped chars generalizing tail after with
  | case1 | case4 => cases h
  | case2 => cases hescaped
  | case3 =>
    cases h
    simpa using hquote.symm
  | case5 c rest _ hline ih =>
    obtain ⟨⟨inner, left⟩, hinner, heq⟩ := Option.map_eq_some_iff.mp h
    cases heq
    obtain ⟨hc, hrest⟩ := List.ne_and_not_mem_of_not_mem_cons hplain
    have hfeed := ih hinner (decide_eq_false (Ne.symm hc)) hrest
    simpa [hfeed] using Ne.symm hline

theorem noFeed_of_spelled {text : String} (h : (Word.mk .string text).Spelled)
    (hplain : '\\' ∉ text.toList) : '\n' ∉ text.toList := by
  obtain ⟨quote, tail, hchars, hquote, htail⟩ := Spells.quoted h
  obtain ⟨rfl, rfl⟩ : quoteFor text.toList = quote ∧
      text.toList ++ [quoteFor text.toList] = tail := List.cons.inj hchars
  have hends : quoteFor text.toList ≠ '\n' ∧ '\\' ≠ quoteFor text.toList := by
    rcases hquote with h | h <;> rw [h] <;> decide
  have hfeed := stringTail_noFeed hends.1 htail rfl (by simpa using ⟨hplain, hends.2⟩)
  exact fun hmem => hfeed (List.mem_append_left _ hmem)

theorem string_staysOnLine_iff {t : Token} (ht : t ∈ (tokenize source).tokens)
    (hkind : t.kind = .string) (hplain : '\\' ∉ t.text.toList) :
    StaysOnLine source t.span ↔ '\r' ∉ t.text.toList := by
  have hof : Remainder.Of source.toList ⟨0, source.toList⟩ := ⟨[], rfl, rfl⟩
  have hscans : Scans ⟨0, source.toList⟩ (tokenize source) :=
    scans_scanUpTo _ (Nat.lt_succ_self _)
  obtain ⟨word, ⟨before, after, hsource, hspan⟩, hfrom⟩ := (hscans.partition hof).occurs t ht
  rw [Token.IsFrom, if_pos hkind] at hfrom
  obtain ⟨quote, hquote, rfl⟩ := hfrom
  have hfeed : '\n' ∉ t.text.toList := by
    have hspelled := spelled_tokenize source t ht (by simp [hkind])
    rw [Token.word, hkind] at hspelled
    exact noFeed_of_spelled hspelled hplain
  have hends : '\n' ≠ quote ∧ '\r' ≠ quote := by rcases hquote with rfl | rfl <;> decide
  rw [List.append_assoc] at hsource
  have hstays := staysOnLine_of_noFeed hsource (List.cons_ne_nil _ _)
    (by simpa using ⟨hends.1, hfeed, hends.1⟩)
  rw [hspan, hstays, ← List.cons_append, List.dropLast_concat]
  simp [hends.2]

/-- A line comment is dropped up to its end, and like a string without a backslash it stays on the
line it starts on unless a carriage return and another character stand in it. -/
theorem staysOnLine_iff (source : String) :
    (∀ span body, LineComment source span body →
      (∃ r after, Asked source r ∧ Remainder.Of source.toList ⟨span.stop, after⟩ ∧
        skipGap .open r.offset r.chars = skipGap .open span.stop after) ∧
      (StaysOnLine source span ↔ '\r' ∉ body.dropLast)) ∧
    ∀ t ∈ (tokenize source).tokens, t.kind = .string → '\\' ∉ t.text.toList →
      (StaysOnLine source t.span ↔ '\r' ∉ t.text.toList) :=
  ⟨fun _ _ hcomment => ⟨hcomment.passes, hcomment.stays_iff⟩,
    fun _ ht hkind hplain => string_staysOnLine_iff ht hkind hplain⟩

theorem staysOnLine_iff_mixed :
    LineComment "'a'; // b\rc" ⟨5, 11⟩ [' ', 'b', '\r', 'c'] ∧
      ⟨.string, "a", ⟨0, 3⟩⟩ ∈ (tokenize "'a'; // b\rc").tokens ∧
      ¬ StaysOnLine "'a'; // b\rc" ⟨5, 11⟩ ∧ StaysOnLine "'a'; // b\rc" ⟨0, 3⟩ := by
  have hasked : Asked "'a'; // b\rc" ⟨4, [' ', '/', '/', ' ', 'b', '\r', 'c']⟩ := by
    have hstring : scan ⟨0, "'a'; // b\rc".toList⟩ =
        .ok (⟨.string, "a", ⟨0, 3⟩⟩, ⟨3, "; // b\rc".toList⟩) := by decide
    have hmark : scan ⟨3, "; // b\rc".toList⟩ =
        .ok (⟨.semicolon, ";", ⟨3, 4⟩⟩, ⟨4, " // b\rc".toList⟩) := by decide
    exact .next (.next .first hstring) hmark
  have hcomment : LineComment "'a'; // b\rc" ⟨5, 11⟩ [' ', 'b', '\r', 'c'] :=
    @LineComment.passed _ _ [' '] [' ', 'b', '\r', 'c'] [] hasked rfl (.blank rfl .nothing)
      (by simp) nofun
  have hmem : ⟨.string, "a", ⟨0, 3⟩⟩ ∈ (tokenize "'a'; // b\rc").tokens := by decide
  obtain ⟨hcomments, hstrings⟩ := staysOnLine_iff "'a'; // b\rc"
  exact ⟨hcomment, hmem, (hcomments _ _ hcomment).2.not.mpr (by decide),
    (hstrings _ hmem rfl (by decide)).mpr (by decide)⟩

/-- A carriage return alone ends a line for the line map, but neither a comment nor a string for the
scanner: the name on the second line is not scanned, and a string goes on there. -/
theorem hidden_by_carriageReturn :
    (LineComment "// a\rb" ⟨0, 6⟩ [' ', 'a', '\r', 'b'] ∧ ¬ StaysOnLine "// a\rb" ⟨0, 6⟩ ∧
      tokenize "// a\rb" = ⟨[⟨.endOfInput, "", ⟨6, 6⟩⟩], none⟩) ∧
    ⟨.string, "a\rb", ⟨0, 5⟩⟩ ∈ (tokenize "'a\rb'").tokens ∧ ¬ StaysOnLine "'a\rb'" ⟨0, 5⟩ := by
  have hcomment : LineComment "// a\rb" ⟨0, 6⟩ [' ', 'a', '\r', 'b'] :=
    @LineComment.passed _ ⟨0, "// a\rb".toList⟩ [] [' ', 'a', '\r', 'b'] [] .first (by decide)
      .nothing (by simp) nofun
  refine ⟨⟨hcomment, fun h => ?_, by decide⟩, by decide, fun h => ?_⟩
  · exact absurd (h 5 (by decide) (by decide)) (by decide)
  · exact absurd (h 3 (by decide) (by decide)) (by decide)

end Stays

end RefCheck.Script
