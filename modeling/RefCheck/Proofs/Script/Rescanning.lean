import RefCheck.Proofs.Script.Partition

/-!
# Scanning what was scanned

The scanner takes the longest stretch that spells a token, and needs to see nothing but the stretch
itself for that. So the stretches that the tokens of a source are cut from, with single spaces
between them, are scanned as the same tokens again, whatever stood between them
(`tokenize_respaced`).
-/

namespace RefCheck.Script

open RefCheck.Text

variable {chars longer op : List Char} {kind : TokenKind} {l : Lexeme}

/-- No longer stretch of a text from an offset on spells a token. -/
def LongestAt (source : List Char) (start : Nat) (word : List Char) : Prop :=
  ∀ kind longer, Spells kind longer →
    OccursAt source ⟨start, start + byteLength longer⟩ longer → longer.length ≤ word.length

/-- Operators are tried in the order of their length. -/
theorem length_le_of_cutOperator (h : cutOperator chars = some l) (hop : op ∈ operators)
    (hfits : op <+: chars) : op.length ≤ l.chars.length := by
  have hsorted : operators.Pairwise fun a b => b.length ≤ a.length := by decide
  have hsome : ((op.isPrefixOf? chars).map (Lexeme.mk .operator op)).isSome := by
    obtain ⟨rest, hrest⟩ := hfits
    rw [List.isPrefixOf?_eq_some_iff_append_eq.mpr hrest]
    rfl
  unfold cutOperator at h
  split at h
  · next found hfound =>
    cases h
    obtain ⟨before, first, after, hall, hfirst, hnone⟩ := List.findSome?_eq_some_iff.mp hfound
    obtain ⟨rest, -, rfl⟩ := Option.map_eq_some_iff.mp hfirst
    rw [hall] at hop hsorted
    rcases List.mem_append.mp hop with hbefore | hop
    · rw [hnone op hbefore] at hsome
      cases hsome
    rcases List.mem_cons.mp hop with rfl | hafter
    · exact Nat.le_refl _
    · exact (List.pairwise_cons.mp (List.pairwise_append.mp hsorted).2.1).1 op hafter
  · next hnone =>
    rw [List.findSome?_eq_none_iff.mp hnone op hop] at hsome
    cases hsome

/-- No stretch that spells a token is longer than the lexeme that is cut off. -/
theorem Spells.length_le_of_cut (h : Script.cut chars = .ok l) (hlonger : Spells kind longer)
    (hfits : longer <+: chars) : longer.length ≤ l.chars.length := by
  obtain ⟨rest, rfl⟩ := hfits
  have hne : longer ++ rest ≠ [] := by simp [hlonger.ne_nil]
  have hpos : 0 < l.chars.length := by
    rcases spells_of_cut h with ⟨-, hnil⟩ | hspells
    · exact absurd hnil hne
    · exact List.length_pos_iff.mpr hspells.ne_nil
  cases hlonger with
  | word hstart htail =>
    rw [List.cons_append, Script.cut, if_pos hstart] at h
    cases h
    simp [List.takeWhile_append_of_pos htail]
  | number hstart hdigit htail =>
    rw [List.cons_append, Script.cut, if_neg hstart, if_pos hdigit] at h
    cases h
    simp [List.takeWhile_append_of_pos htail]
  | string hquote htail =>
    have hmore := stringTail_more htail rest
    rcases hquote with rfl | rfl
    · rw [List.cons_append, Script.cut, if_neg (by decide), if_neg (by decide), if_pos (by decide),
        hmore] at h
      cases h
      exact Nat.le_refl _
    · rw [List.cons_append, Script.cut, if_neg (by decide), if_neg (by decide), if_pos (by decide),
        hmore] at h
      cases h
      exact Nat.le_refl _
  | mark | equals | bang => exact hpos
  | operator hop =>
    have hhead : ∀ op ∈ operators, op.head?.any fun c => !isNameStart c && !c.isDigit &&
        !(c = '"' || c = '\x27') && markKind c = none := by decide
    obtain ⟨c, hc, hplain⟩ := (Option.any_eq_true _ _).mp (hhead longer hop)
    simp only [Bool.and_eq_true, Bool.not_eq_true', decide_eq_true_eq] at hplain
    obtain ⟨⟨⟨hstart, hdigit⟩, hquote⟩, hmark⟩ := hplain
    obtain ⟨tail, rfl⟩ := List.head?_eq_some_iff.mp hc
    rw [List.cons_append, Script.cut, if_neg (by simp [hstart]), if_neg (by simp [hdigit]),
      if_neg (by simp [hquote]), hmark] at h
    dsimp only at h
    split at h
    · next found hfound =>
      cases h
      exact length_le_of_cutOperator hfound hop (List.prefix_append _ _)
    · cases h

section Tokens

variable {source : List Char} {r behind : Remainder} {t : Token} {word : List Char}

theorem OccursAt.slice {span : Span} (h : OccursAt source span word) :
    slice source span.start span.stop = some word := by
  obtain ⟨before, after, rfl, rfl⟩ := h
  exact slice_append before word after

/-- What stands in a text from an offset on starts what is left there. -/
theorem OccursAt.fits {start : Nat} (h : OccursAt source ⟨start, start + byteLength word⟩ word)
    (hof : Remainder.Of source ⟨start, chars⟩) : word <+: chars := by
  obtain ⟨before, after, hsource, hspan⟩ := h
  obtain ⟨passed, hpassed, hoffset⟩ := hof
  have hstart : start = byteLength before := congrArg Span.start hspan
  have hleft : dropBytes source start = some (word ++ after) := by
    rw [hsource, hstart, List.append_assoc, dropBytes_append]
  have hsame : dropBytes source start = some chars := by
    rw [hpassed, show start = byteLength passed from hoffset, dropBytes_append]
  exact ⟨after, Option.some.inj (hleft.symm.trans hsame)⟩

theorem scan_longest (h : scan r = .ok (t, behind)) (hof : r.Of source)
    (hkind : t.kind ≠ .endOfInput) :
    ∃ word, OccursAt source t.span word ∧ Spells t.kind word ∧ t.word = .read t.kind word ∧
      LongestAt source t.span.start word := by
  rw [scan] at h
  split at h
  · cases h
  · next offset chars hgap =>
    split at h
    · cases h
    · next lexeme hcut =>
      cases h
      have hleft := skipGap_of hgap hof
      refine ⟨lexeme.chars, hleft.occursAt (cut_spec hcut).1.symm,
        (spells_of_cut hcut).resolve_left fun h => hkind h.1, rfl, ?_⟩
      intro kind longer hlonger hoccurs
      exact hlonger.length_le_of_cut hcut (hoccurs.fits hleft)

theorem tokenize_longest (source : String) :
    ∀ t ∈ (tokenize source).tokens, t.kind ≠ .endOfInput →
      ∃ word, OccursAt source.toList t.span word ∧ Spells t.kind word ∧
        t.word = .read t.kind word ∧ LongestAt source.toList t.span.start word :=
  forall_scanUpTo (fun _ _ _ hof h => ⟨scan_longest h hof, (scan_cutFrom h hof).2⟩) _ ⟨[], rfl, rfl⟩

/-- The end of input has no text. -/
theorem word_of_end {source : String} (ht : t ∈ (tokenize source).tokens)
    (hend : t.kind = .endOfInput) : t.word = .of .endOfInput := by
  have hspan := tokenize_end source t ht hend
  obtain ⟨before, after, -, hstands⟩ := (tokenize_cutFrom source t ht).stands (by simp [hend])
  rw [hspan] at hstands
  injection hstands with hstart hstop
  have hbytes := length_le_byteLength t.text.toList
  have htext : t.text.toList = [] := List.length_eq_zero_iff.mp (by omega)
  rw [Token.word, hend, String.toList_eq_nil_iff.mp htext]
  rfl

/-- Without a fault, tokens go on to the end of input. -/
theorem Sealed.exists_end {ts : List Token} (h : Sealed none ts) :
    ∃ front last, ts = front ++ [last] ∧ last.kind = .endOfInput := by
  induction ts with
  | nil => exact absurd rfl h
  | cons t rest ih =>
    rw [Sealed] at h
    split at h
    · next hend => exact ⟨[], t, by rw [h.1, List.nil_append], hend⟩
    · obtain ⟨front, last, rfl, hlast⟩ := ih h
      exact ⟨t :: front, last, rfl, hlast⟩

end Tokens

/-- The stretches of a source that its tokens but the end of input are cut from. -/
def lexemes (source : String) : List (List Char) :=
  ((tokenize source).tokens.filter (·.kind ≠ .endOfInput)).map fun t =>
    (slice source.toList t.span.start t.span.stop).getD []

/-- The lexemes of a source with single spaces between them. -/
def respaced (source : String) : String := String.ofList ([' '].intercalate (lexemes source))

/-- A source is scanned without a fault, as tokens of these kinds with these texts. -/
def ScansAs (source : String) (ws : List Word) : Prop :=
  (tokenize source).fault = none ∧ (tokenize source).tokens.map Token.word = ws

/-- Without a fault, a source has a piece for each token but the end of input. -/
theorem exists_pieces {source : String} (h : (tokenize source).fault = none) :
    ∃ pieces : List (TokenKind × List Char), (∀ p ∈ pieces, Spells p.1 p.2) ∧
      pieces.map Prod.snd = lexemes source ∧
      (tokenize source).tokens.map Token.word =
        pieces.map (fun p => .read p.1 p.2) ++ [.of .endOfInput] := by
  have hsealed := sealed_tokenize source
  rw [h] at hsealed
  obtain ⟨front, last, htokens, hlast⟩ := hsealed.exists_end
  have hfront : ∀ t ∈ front, t.kind ≠ .endOfInput := by
    rw [htokens] at hsealed
    exact hsealed.ne_end (List.cons_ne_nil _ _)
  have hmem : ∀ t ∈ front, t ∈ (tokenize source).tokens := by
    intro t ht
    rw [htokens]
    exact List.mem_append_left _ ht
  let piece := fun t : Token =>
    (t.kind, (slice source.toList t.span.start t.span.stop).getD [])
  have hpiece : ∀ t ∈ front, Spells (piece t).1 (piece t).2 ∧
      t.word = .read (piece t).1 (piece t).2 := by
    intro t ht
    obtain ⟨word, hoccurs, hspells, hword, -⟩ := tokenize_longest source t (hmem t ht) (hfront t ht)
    have hslice : piece t = (t.kind, word) := by simp only [piece, hoccurs.slice, Option.getD_some]
    rw [hslice]
    exact ⟨hspells, hword⟩
  have hend : last.word = .of .endOfInput := by
    have hmem : last ∈ (tokenize source).tokens := by simp [htokens]
    exact word_of_end hmem hlast
  have hfilter : (front ++ [last]).filter (·.kind ≠ .endOfInput) = front := by
    have hkeep : front.filter (·.kind ≠ .endOfInput) = front :=
      List.filter_eq_self.mpr fun t ht => by simpa using hfront t ht
    rw [List.filter_append, hkeep]
    simp [hlast]
  refine ⟨front.map piece, List.forall_mem_map.mpr fun t ht => (hpiece t ht).1, ?_, ?_⟩
  · rw [lexemes, htokens, hfilter, List.map_map]
    rfl
  · rw [htokens, List.map_append, List.map_map, List.map_singleton, hend]
    congr 1
    exact List.map_congr_left fun t ht => (hpiece t ht).2

theorem scansAs_pieces {pieces : List (TokenKind × List Char)}
    (h : ∀ p ∈ pieces, Spells p.1 p.2) :
    ScansAs (String.ofList ([' '].intercalate (pieces.map Prod.snd)))
      (pieces.map (fun p => .read p.1 p.2) ++ [.of .endOfInput]) := by
  obtain ⟨ts, hts, hwords⟩ := tokenize_pieces h
  rw [ScansAs, hts]
  exact ⟨rfl, hwords⟩

/-- A source that is scanned without a fault is scanned as the same tokens when single spaces stand
between its lexemes. So what stands between them does not matter, and neither do the neighbours of a
token: its lexeme is scanned as the token alone, and is the longest stretch from there that spells
a token. -/
theorem tokenize_respaced {source : String} (h : (tokenize source).fault = none) :
    ScansAs (respaced source) ((tokenize source).tokens.map Token.word) ∧
    (∀ other, (tokenize other).fault = none → lexemes other = lexemes source →
      (tokenize other).tokens.map Token.word = (tokenize source).tokens.map Token.word) ∧
    ∀ t ∈ (tokenize source).tokens, t.kind ≠ .endOfInput →
      ∃ word, slice source.toList t.span.start t.span.stop = some word ∧
        ScansAs (String.ofList word) [t.word, .of .endOfInput] ∧
        LongestAt source.toList t.span.start word := by
  have hrespaced : ∀ source, (tokenize source).fault = none →
      ScansAs (respaced source) ((tokenize source).tokens.map Token.word) := by
    intro source h
    obtain ⟨pieces, hspells, hlexemes, hwords⟩ := exists_pieces h
    rw [respaced, ← hlexemes, hwords]
    exact scansAs_pieces hspells
  refine ⟨hrespaced source h, fun other hother hsame => ?_, fun t ht hkind => ?_⟩
  · have hagain := (hrespaced other hother).2
    rw [respaced, hsame] at hagain
    exact hagain.symm.trans (hrespaced source h).2
  · obtain ⟨word, hoccurs, hspells, hword, hlongest⟩ := tokenize_longest source t ht hkind
    refine ⟨word, hoccurs.slice, ?_, hlongest⟩
    have halone : ∀ p ∈ [(t.kind, word)], Spells p.1 p.2 := List.forall_mem_singleton.mpr hspells
    rw [hword]
    simpa [List.intercalate] using scansAs_pieces halone

/-- Operators next to each other and next to comments, and a string with a quote in it. -/
theorem tokenize_respaced_crowded :
    (tokenize "a/**/!==-'it\\'s'//\n<=typeof\t1.e5;").fault = none ∧
      respaced "a/**/!==-'it\\'s'//\n<=typeof\t1.e5;" = "a !== - 'it\\'s' <= typeof 1.e5 ;" ∧
      ScansAs (respaced "a/**/!==-'it\\'s'//\n<=typeof\t1.e5;")
        [⟨.identifier, "a"⟩, ⟨.operator, "!=="⟩, ⟨.operator, "-"⟩, ⟨.string, "it\\'s"⟩,
          ⟨.operator, "<="⟩, ⟨.typeof, "typeof"⟩, ⟨.number, "1.e5"⟩, ⟨.semicolon, ";"⟩,
          ⟨.endOfInput, ""⟩] := by
  have hfault : (tokenize "a/**/!==-'it\\'s'//\n<=typeof\t1.e5;").fault = none := by decide +kernel
  have hagain := (tokenize_respaced hfault).1
  have hwords : (tokenize "a/**/!==-'it\\'s'//\n<=typeof\t1.e5;").tokens.map Token.word =
      [⟨.identifier, "a"⟩, ⟨.operator, "!=="⟩, ⟨.operator, "-"⟩, ⟨.string, "it\\'s"⟩,
        ⟨.operator, "<="⟩, ⟨.typeof, "typeof"⟩, ⟨.number, "1.e5"⟩, ⟨.semicolon, ";"⟩,
        ⟨.endOfInput, ""⟩] := by decide +kernel
  rw [hwords] at hagain
  exact ⟨hfault, by decide +kernel, hagain⟩

end RefCheck.Script
