import RefCheck.Proofs.Script.Printing
import RefCheck.Proofs.Script.Scanning

/-!
# Written words are read again

Words that are written with a space between any two are cut apart at the spaces, so the scanner
finds them again: `tokenize_pieces`. The tokens of a source are written so that this holds, a string
in a quote that does not end it early.
-/

namespace RefCheck.Script

open RefCheck.Text Unicode

/-- What may stand behind a word: nothing, or what starts with a space. -/
inductive Apart : List Char → Prop
  | nothing : Apart []
  | space (rest : List Char) : Apart (' ' :: rest)

theorem Apart.takeWhile {rest : List Char} (h : Apart rest) {p : Char → Bool}
    (hspace : p ' ' = false) : rest.takeWhile p = [] ∧ rest.dropWhile p = rest := by
  cases h with
  | nothing => exact ⟨rfl, rfl⟩
  | space rest => simp [hspace]

/-- Characters that all fit are taken up to where the word ends. -/
theorem span_apart {p : Char → Bool} {tail rest : List Char} (htail : ∀ d ∈ tail, p d)
    (hrest : Apart rest) (hspace : p ' ' = false) :
    (tail ++ rest).takeWhile p = tail ∧ (tail ++ rest).dropWhile p = rest := by
  obtain ⟨htake, hdrop⟩ := hrest.takeWhile hspace
  rw [List.takeWhile_append_of_pos htail, List.dropWhile_append_of_pos htail, htake, hdrop]
  exact ⟨List.append_nil _, rfl⟩

theorem inRanges_eq_false {r s : List (Nat × Nat)} {c : Char}
    (h : ∀ a ∈ r, ∀ b ∈ s, a.2 < b.1 ∨ b.2 < a.1) (hc : inRanges r c) : inRanges s c = false := by
  rw [inRanges, List.any_eq_true] at hc
  obtain ⟨a, ha, hin⟩ := hc
  rw [inRanges, List.any_eq_false]
  intro b hb
  have := h a ha b hb
  simp only [Bool.and_eq_true, decide_eq_true_eq] at hin ⊢
  omega

/-- The code of a character lies in a range that the character lies in. -/
theorem toNat_mem {c low high : Char} (h : c.val ≥ low.val ∧ c.val ≤ high.val) :
    low.toNat ≤ c.toNat ∧ c.toNat ≤ high.toNat :=
  h.imp UInt32.le_iff_toNat_le.mp UInt32.le_iff_toNat_le.mp

theorem toNat_of_isAlpha {c : Char} (h : c.isAlpha) : 65 ≤ c.toNat ∧ c.toNat ≤ 122 := by
  rcases (Bool.or_eq_true _ _).mp h with hupper | hlower
  · have hcode : 'A'.toNat ≤ c.toNat ∧ c.toNat ≤ 'Z'.toNat := toNat_mem (of_decide_eq_true hupper)
    exact ⟨hcode.1, Nat.le_trans hcode.2 (by decide)⟩
  · have hcode : 'a'.toNat ≤ c.toNat ∧ c.toNat ≤ 'z'.toNat :=
      toNat_mem (((Bool.and_eq_true _ _).mp hlower).imp of_decide_eq_true of_decide_eq_true)
    exact ⟨Nat.le_trans (by decide) hcode.1, hcode.2⟩

theorem toNat_of_isDigit {c : Char} (h : c.isDigit) : 48 ≤ c.toNat ∧ c.toNat ≤ 57 := by
  have hcode : '0'.toNat ≤ c.toNat ∧ c.toNat ≤ '9'.toNat :=
    toNat_mem (((Bool.and_eq_true _ _).mp h).imp of_decide_eq_true of_decide_eq_true)
  exact hcode

theorem isBlank_ascii {c : Char} (h : 33 ≤ c.toNat ∧ c.toNat < 128) : isBlank c = false := by
  have hspace : c ≠ ' ' := by
    rintro rfl
    exact absurd h.1 (by decide)
  simp only [isBlank, beyondAscii, Bool.or_eq_false_iff, Bool.and_eq_false_iff,
    decide_eq_false_iff_not]
  exact ⟨⟨hspace, by omega⟩, by omega⟩

/-- No name starts with white space. -/
theorem isBlank_of_isNameStart {c : Char} (h : isNameStart c) : isBlank c = false := by
  have hranges : ∀ a ∈ alphabeticRanges, ∀ b ∈ whiteSpaceRanges, a.2 < b.1 ∨ b.2 < a.1 := by
    decide +kernel
  simp only [isNameStart, isAlphabetic, Bool.or_eq_true, Bool.and_eq_true,
    decide_eq_true_eq] at h
  rcases h with ((halpha | ⟨hbeyond, halpha⟩) | rfl) | rfl
  · have := toNat_of_isAlpha halpha
    exact isBlank_ascii (by omega)
  · have hbound : 128 ≤ c.toNat := of_decide_eq_true hbeyond
    have hspace : c ≠ ' ' := by
      rintro rfl
      exact absurd hbound (by decide)
    simp only [isBlank, inRanges_eq_false hranges halpha, Bool.and_false, Bool.or_false,
      Bool.or_eq_false_iff, Bool.and_eq_false_iff, decide_eq_false_iff_not]
    exact ⟨hspace, by omega⟩
  · decide
  · decide

/-- A gap ends where neither white space nor a comment starts. -/
theorem skipGap_open {offset : Nat} {c : Char} {rest : List Char} (hblank : isBlank c = false)
    (hslash : c ≠ '/') : skipGap .open offset (c :: rest) = .ok ⟨offset, c :: rest⟩ := by
  rw [skipGap, hblank]
  · rfl
  · rintro _ rfl
    exact absurd rfl hslash
  · rintro _ rfl
    exact absurd rfl hslash

section Words

variable {kind : TokenKind} {word rest : List Char}

theorem Spells.skipGap (h : Spells kind word) (hrest : Apart rest) (offset : Nat) :
    skipGap .open offset (word ++ rest) = .ok ⟨offset, word ++ rest⟩ := by
  cases h with
  | word hstart =>
    refine skipGap_open (isBlank_of_isNameStart hstart) ?_
    rintro rfl
    exact absurd hstart (by decide)
  | number _ hdigit =>
    have := toNat_of_isDigit hdigit
    refine skipGap_open (isBlank_ascii (by omega)) ?_
    rintro rfl
    exact absurd hdigit (by decide)
  | string hquote => rcases hquote with rfl | rfl <;> exact skipGap_open (by decide) (by decide)
  | mark hmark =>
    unfold markKind at hmark
    split at hmark <;> cases hmark <;> exact skipGap_open (by decide) (by decide)
  | operator hop =>
    have hhead : ∀ op ∈ operators,
        op = ['/'] ∨ op.head?.any fun c => !isBlank c && decide (c ≠ '/') := by decide
    rcases hhead word hop with rfl | hhead
    · cases hrest <;> rfl
    · cases word with
      | nil => cases hhead
      | cons c tail =>
        obtain ⟨hblank, hslash⟩ : isBlank c = false ∧ c ≠ '/' := by simpa using hhead
        exact skipGap_open hblank hslash
  | equals | bang => exact skipGap_open (by decide) (by decide)

theorem stringTail_more {quote : Char} {escaped : Bool} {chars tail after : List Char}
    (h : stringTail quote escaped chars = some (tail, after)) (more : List Char) :
    stringTail quote escaped (chars ++ more) = some (tail, after ++ more) := by
  fun_induction stringTail quote escaped chars generalizing tail after with
  | case1 | case4 => cases h
  | case2 c rest ih =>
    obtain ⟨⟨inner, left⟩, hinner, heq⟩ := Option.map_eq_some_iff.mp h
    cases heq
    rw [List.cons_append, stringTail, ih hinner]
    rfl
  | case3 rest =>
    cases h
    rw [List.cons_append, stringTail, if_pos rfl]
  | case5 c rest hquote hline ih =>
    obtain ⟨⟨inner, left⟩, hinner, heq⟩ := Option.map_eq_some_iff.mp h
    cases heq
    rw [List.cons_append, stringTail, if_neg hquote, if_neg hline, ih hinner]
    rfl

/-- A word is cut off where it ends. -/
theorem Spells.cut (h : Spells kind word) (hrest : Apart rest) :
    cut (word ++ rest) = .ok ⟨kind, word, rest⟩ := by
  cases h with
  | word hstart htail =>
    obtain ⟨htake, hdrop⟩ := span_apart htail hrest (by decide)
    rw [List.cons_append, Script.cut, if_pos hstart, htake, hdrop]
  | number hstart hdigit htail =>
    obtain ⟨htake, hdrop⟩ := span_apart htail hrest (by decide)
    rw [List.cons_append, Script.cut, if_neg hstart, if_pos hdigit, htake, hdrop]
  | @string quote tail hquote htail =>
    have hmore := stringTail_more htail rest
    rcases hquote with rfl | rfl
    · rw [List.cons_append, Script.cut, if_neg (by decide), if_neg (by decide),
        if_pos (by decide), hmore]
      rfl
    · rw [List.cons_append, Script.cut, if_neg (by decide), if_neg (by decide),
        if_pos (by decide), hmore]
      rfl
  | mark hmark =>
    unfold markKind at hmark
    split at hmark <;> cases hmark <;> rfl
  | operator hop =>
    simp only [operators, List.mem_cons, List.not_mem_nil, or_false] at hop
    rcases hop with rfl | rfl | rfl | rfl | rfl | rfl | rfl | rfl | rfl | rfl | rfl | rfl | rfl |
      rfl | rfl <;> cases hrest <;> rfl
  | equals | bang => cases hrest <;> rfl

end Words

/-- The written form of a word is read as the word. -/
def Word.Spelled (w : Word) : Prop := Spells w.kind w.chars

/-- A string ends at its quote, and may be written in any quote that does not end it early. -/
theorem stringTail_requoted {quote : Char} {escaped : Bool} {chars tail after : List Char}
    (h : stringTail quote escaped chars = some (tail, after)) :
    ∃ text, tail = text ++ [quote] ∧ occursUnescaped quote escaped text = false ∧
      ∀ other, occursUnescaped other escaped text = false →
        stringTail other escaped (text ++ [other]) = some (text ++ [other], []) := by
  fun_induction stringTail quote escaped chars generalizing tail after with
  | case1 | case4 => cases h
  | case2 c rest ih =>
    obtain ⟨⟨inner, left⟩, hinner, heq⟩ := Option.map_eq_some_iff.mp h
    cases heq
    obtain ⟨text, rfl, hquote, hother⟩ := ih hinner
    refine ⟨c :: text, rfl, hquote, fun other hnot => ?_⟩
    rw [List.cons_append, stringTail, hother other hnot]
    rfl
  | case3 rest =>
    cases h
    refine ⟨[], rfl, rfl, fun other _ => ?_⟩
    rw [List.nil_append, stringTail, if_pos rfl]
  | case5 c rest hquote hline ih =>
    obtain ⟨⟨inner, left⟩, hinner, heq⟩ := Option.map_eq_some_iff.mp h
    cases heq
    obtain ⟨text, rfl, hnot, hother⟩ := ih hinner
    refine ⟨c :: text, rfl, ?_, fun other hfree => ?_⟩
    · simp [occursUnescaped, hquote, hnot]
    · simp only [occursUnescaped, Bool.or_eq_false_iff, decide_eq_false_iff_not] at hfree
      rw [List.cons_append, stringTail, if_neg hfree.1, if_neg hline, hother other hfree.2]
      rfl

/-- What is always spelled alike is spelled as it should be. -/
theorem Spells.eq_spelling {kind : TokenKind} {word : List Char} (h : Spells kind word)
    (hfixed : kind.spelling ≠ "") : String.ofList word = kind.spelling := by
  cases h with
  | @word c tail =>
    rcases wordKind_cases (c :: tail) with hname | hkeyword
    · rw [hname] at hfixed
      exact absurd rfl hfixed
    · have hall : ∀ entry ∈ keywords, entry.1 = entry.2.spelling := by decide
      exact hall _ hkeyword
  | mark hmark =>
    unfold markKind at hmark
    split at hmark <;> cases hmark <;> rfl
  | equals | bang => rfl
  | _ => exact absurd rfl hfixed

theorem spells_keyword {text : String} {kind : TokenKind} (h : (text, kind) ∈ keywords) :
    Spells kind text.toList := by
  have hall : ∀ entry ∈ keywords, wordKind entry.1.toList = entry.2 ∧
      entry.1.toList.head?.any isNameStart ∧ entry.1.toList.tail.all isNamePart := by decide
  obtain ⟨hkind, hstart, hpart⟩ := hall _ h
  dsimp only at hkind hstart hpart
  rw [← hkind]
  cases htext : text.toList with
  | nil =>
    rw [htext] at hstart
    cases hstart
  | cons c tail =>
    rw [htext] at hstart hpart
    exact .word (by simpa using hstart) (by simpa using hpart)

theorem spells_spelling {kind : TokenKind} (hfixed : kind.spelling ≠ "") :
    Spells kind kind.spelling.toList := by
  cases kind with
  | var | function | ret | ifWord | elseWord | breakWord | continueWord | this | null | trueWord
  | falseWord | typeof => exact spells_keyword (by decide)
  | openParen | closeParen | openBrace | closeBrace | comma | semicolon | colon | dot =>
    exact .mark rfl
  | equals => exact .equals
  | bang => exact .bang
  | _ => exact absurd rfl hfixed

/-- A string is spelled with a quote on either side. -/
theorem Spells.quoted {word : List Char} (h : Spells .string word) :
    ∃ quote tail, word = quote :: tail ∧ (quote = '"' ∨ quote = '\x27') ∧
      stringTail quote false tail = some (tail, []) := by
  generalize hkind : TokenKind.string = kind at h
  cases h with
  | @word c tail =>
    rcases wordKind_cases (c :: tail) with hname | hkeyword
    · rw [hname] at hkind
      cases hkind
    · have hall : ∀ entry ∈ keywords, .string ≠ entry.2 := by decide
      exact absurd hkind (hall _ hkeyword)
  | @string quote tail hquote htail => exact ⟨quote, tail, rfl, hquote, htail⟩
  | mark hmark =>
    unfold markKind at hmark
    split at hmark <;> cases hmark <;> cases hkind
  | _ => cases hkind

theorem spelled_string {chars : List Char} (h : Spells .string chars) :
    Word.Spelled ⟨.string, String.ofList (chars.drop 1).dropLast⟩ := by
  obtain ⟨quote, tail, rfl, hquote, htail⟩ := h.quoted
  obtain ⟨text, rfl, hfree, hother⟩ := stringTail_requoted htail
  have hchosen : occursUnescaped (quoteFor text) false text = false ∧
      (quoteFor text = '"' ∨ quoteFor text = '\x27') := by
    rw [quoteFor]
    by_cases hdouble : occursUnescaped '"' false text
    · rw [if_pos hdouble]
      rcases hquote with rfl | rfl
      · exact absurd hdouble (by simp [hfree])
      · exact ⟨hfree, .inr rfl⟩
    · rw [if_neg hdouble]
      exact ⟨by simpa using hdouble, .inl rfl⟩
  have htext : String.ofList ((quote :: (text ++ [quote])).drop 1).dropLast =
      String.ofList text := by
    simp
  rw [Word.Spelled, Word.chars, htext]
  simpa using Spells.string hchosen.2 (hother _ hchosen.1)

theorem spelled_of_scan {r after : Remainder} {t : Token} (h : scan r = .ok (t, after))
    (hkind : t.kind ≠ .endOfInput) : t.word.Spelled := by
  rw [scan] at h
  split at h
  · cases h
  · next offset chars hgap =>
    split at h
    · cases h
    · next lexeme hcut =>
      cases h
      have hspells := (spells_of_cut hcut).resolve_left fun h => hkind h.1
      by_cases hstring : lexeme.kind = .string
      · rw [hstring] at hspells
        simpa [Token.word, Lexeme.text, hstring] using spelled_string hspells
      · simpa [Word.Spelled, Token.word, Lexeme.text, Word.chars, hstring] using hspells

/-- All tokens of a source can be written again. -/
theorem spelled_tokenize (source : String) :
    ∀ t ∈ (tokenize source).tokens, t.kind ≠ .endOfInput → t.word.Spelled :=
  @forall_scanUpTo (fun _ => True) _ (fun _ _ _ _ h => ⟨spelled_of_scan h, trivial⟩) _ _ trivial

/-- The word that characters are read as if they spell the kind. -/
def Word.read (kind : TokenKind) (chars : List Char) : Word :=
  ⟨kind, String.ofList (Lexeme.text ⟨kind, chars, []⟩)⟩

theorem Word.read_chars (w : Word) : Word.read w.kind w.chars = w := by
  have htext : String.ofList (Lexeme.text ⟨w.kind, w.chars, []⟩) = w.text := by
    by_cases hstring : w.kind = .string <;> simp [Lexeme.text, Word.chars, hstring]
  rw [Word.read, htext]

theorem Spells.scan {kind : TokenKind} {word rest : List Char} (h : Spells kind word)
    (hrest : Apart rest) (offset : Nat) :
    ∃ t after, scan ⟨offset, word ++ rest⟩ = .ok (t, ⟨after, rest⟩) ∧
      t.word = .read kind word := by
  rw [Script.scan, h.skipGap hrest]
  dsimp only
  rw [h.cut hrest]
  exact ⟨_, _, rfl, rfl⟩

theorem scan_word {w : Word} (h : w.Spelled) {rest : List Char} (hrest : Apart rest)
    (offset : Nat) :
    ∃ t after, scan ⟨offset, w.chars ++ rest⟩ = .ok (t, ⟨after, rest⟩) ∧ t.word = w := by
  have hscan := Spells.scan h hrest offset
  rwa [w.read_chars] at hscan

theorem scanUpTo_space (fuel offset : Nat) (chars : List Char) :
    scanUpTo fuel ⟨offset, ' ' :: chars⟩ = scanUpTo fuel ⟨offset + 1, chars⟩ := by
  cases fuel with
  | zero => rfl
  | succ fuel => rfl

section Pieces

variable {pieces : List (TokenKind × List Char)}

/-- Pieces that each spell a token, with spaces between them, are scanned as these tokens and the
end of input. -/
theorem scanUpTo_pieces (h : ∀ p ∈ pieces, Spells p.1 p.2) {fuel : Nat}
    (hfuel : pieces.length < fuel) (offset : Nat) :
    ∃ ts, scanUpTo fuel ⟨offset, [' '].intercalate (pieces.map Prod.snd)⟩ = ⟨ts, none⟩ ∧
      ts.map Token.word = pieces.map (fun p => .read p.1 p.2) ++ [.of .endOfInput] := by
  induction pieces generalizing fuel offset with
  | nil =>
    cases fuel with
    | zero => cases hfuel
    | succ fuel => exact ⟨_, rfl, rfl⟩
  | cons p rest ih =>
    obtain ⟨hp, hrest⟩ := List.forall_mem_cons.mp h
    cases fuel with
    | zero => cases hfuel
    | succ fuel =>
      -- Behind the piece there is nothing or a space, which does not matter for what comes next.
      obtain ⟨after, happend, hafter, hgap⟩ : ∃ after,
          [' '].intercalate ((p :: rest).map Prod.snd) = p.2 ++ after ∧ Apart after ∧
          ∀ offset, ∃ next, scanUpTo fuel ⟨offset, after⟩ =
            scanUpTo fuel ⟨next, [' '].intercalate (rest.map Prod.snd)⟩ := by
        cases rest with
        | nil => exact ⟨[], by simp [List.intercalate], .nothing, fun offset => ⟨offset, rfl⟩⟩
        | cons q more =>
          exact ⟨' ' :: [' '].intercalate ((q :: more).map Prod.snd), by simp [List.intercalate],
            .space _, fun offset => ⟨offset + 1, scanUpTo_space _ _ _⟩⟩
      obtain ⟨t, stop, hscan, ht⟩ := hp.scan hafter offset
      obtain ⟨next, hnext⟩ := hgap stop
      obtain ⟨ts, hts, hwords⟩ := ih hrest (Nat.lt_of_succ_lt_succ hfuel) next
      have hkind : t.kind ≠ .endOfInput := by
        rw [show t.kind = p.1 from congrArg Word.kind ht]
        exact hp.ne_end
      refine ⟨t :: ts, ?_, by simp [ht, hwords]⟩
      rw [happend, scanUpTo, hscan]
      dsimp only
      rw [if_neg hkind, hnext, hts]

/-- Every piece takes a character at least. -/
theorem length_le_intercalate (h : ∀ p ∈ pieces, Spells p.1 p.2) :
    pieces.length ≤ ([' '].intercalate (pieces.map Prod.snd)).length := by
  induction pieces with
  | nil => exact Nat.le_refl _
  | cons p rest ih =>
    obtain ⟨hp, hrest⟩ := List.forall_mem_cons.mp h
    have hpos := List.length_pos_iff.mpr hp.ne_nil
    have hlength := ih hrest
    cases rest with
    | nil =>
      simp [List.intercalate]
      omega
    | cons q more =>
      simp only [List.intercalate, List.map_cons, List.intersperse_cons_cons, List.flatten_cons,
        List.length_append, List.length_cons] at hlength ⊢
      omega

theorem tokenize_pieces (h : ∀ p ∈ pieces, Spells p.1 p.2) :
    ∃ ts, tokenize (String.ofList ([' '].intercalate (pieces.map Prod.snd))) = ⟨ts, none⟩ ∧
      ts.map Token.word = pieces.map (fun p => .read p.1 p.2) ++ [.of .endOfInput] := by
  rw [tokenize, String.toList_ofList]
  exact scanUpTo_pieces h (Nat.lt_succ_of_le (length_le_intercalate h)) 0

end Pieces

/-- The words of a printed text are scanned again. -/
theorem tokenize_words {ws : List Word} (h : ∀ w ∈ ws, w.Spelled) :
    ∃ ts, tokenize (String.ofList ([' '].intercalate (ws.map Word.chars))) = ⟨ts, none⟩ ∧
      ts.map Token.word = ws ++ [.of .endOfInput] := by
  have hpieces : ∀ p ∈ ws.map fun w => (w.kind, w.chars), Spells p.1 p.2 :=
    List.forall_mem_map.mpr h
  obtain ⟨ts, hts, hwords⟩ := tokenize_pieces hpieces
  rw [List.map_map] at hts hwords
  refine ⟨ts, hts, hwords.trans ?_⟩
  simp [Function.comp_def, Word.read_chars]

end RefCheck.Script
