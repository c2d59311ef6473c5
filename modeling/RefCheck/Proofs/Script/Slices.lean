import Mathlib.Data.List.Basic
import RefCheck.Script.Token.Lexer

/-!
# Where tokens stand

The scanner goes through a source from its start and drops nothing but what it has looked at, so the
offset that it keeps is the number of bytes before what is left. The text of every token but a
string therefore stands in the source at the span of the token.
-/

namespace RefCheck.Script

open RefCheck.Text

/-- The characters stand in a text, and take the bytes of the span there. -/
def OccursAt (source : List Char) (span : Span) (chars : List Char) : Prop :=
  ∃ before after, source = before ++ chars ++ after ∧
    span = ⟨byteLength before, byteLength before + byteLength chars⟩

/-- What is left of a source: its end, from the offset on. -/
def Remainder.Of (source : List Char) (r : Remainder) : Prop :=
  ∃ before, source = before ++ r.chars ∧ r.offset = byteLength before

/-- What can be said about a token that was cut out of a source. -/
structure Token.CutFrom (source : List Char) (t : Token) : Prop where
  stands : t.kind ≠ .string → OccursAt source t.span t.text.toList
  identifier : t.kind = .identifier → t.text ≠ ""
  function : t.kind = .function → t.text = "function"

variable {source chars : List Char}

/-- The empty text stands right behind any other. -/
theorem OccursAt.behind {span : Span} (h : OccursAt source span chars) :
    OccursAt source ⟨span.stop, span.stop⟩ [] := by
  obtain ⟨before, after, hsource, rfl⟩ := h
  refine ⟨before ++ chars, after, by rw [List.append_nil, hsource], ?_⟩
  rw [byteLength_append]
  rfl

theorem Remainder.Of.drop {offset : Nat} (passed : List Char)
    (h : Remainder.Of source ⟨offset, passed ++ chars⟩) :
    Remainder.Of source ⟨offset + byteLength passed, chars⟩ := by
  obtain ⟨before, hsource, hoffset⟩ := h
  refine ⟨before ++ passed, ?_, ?_⟩
  · rw [hsource, List.append_assoc]
  · rw [byteLength_append, ← hoffset]

theorem Remainder.Of.drop_one {offset : Nat} {c : Char}
    (h : Remainder.Of source ⟨offset, c :: chars⟩) :
    Remainder.Of source ⟨offset + c.utf8Size, chars⟩ := h.drop [c]

/-- What is left after a gap is an end of the source. -/
theorem skipGap_of {gap : Gap} {offset : Nat} {r : Remainder} (h : skipGap gap offset chars = .ok r)
    (hof : Remainder.Of source ⟨offset, chars⟩) : r.Of source := by
  fun_induction skipGap gap offset chars with
  | case1 | case5 | case6 =>
    cases h
    exact hof
  | case2 offset rest ih => exact ih h (hof.drop ['/', '/'])
  | case3 offset rest ih => exact ih h (hof.drop ['/', '*'])
  | case8 => cases h
  | case9 opened offset rest ih => exact ih h (hof.drop ['*', '/'])
  | case4 _ _ _ _ _ _ ih | case7 _ _ _ ih | case10 _ _ _ _ _ ih => exact ih h hof.drop_one

theorem stringTail_append {quote : Char} {escaped : Bool} {tail after : List Char}
    (h : stringTail quote escaped chars = some (tail, after)) : tail ++ after = chars := by
  fun_induction stringTail quote escaped chars generalizing tail after with
  | case1 | case4 => cases h
  | case2 c rest ih | case5 c rest _ _ ih =>
    obtain ⟨⟨inner, left⟩, hinner, heq⟩ := Option.map_eq_some_iff.mp h
    cases heq
    exact congrArg (c :: ·) (ih hinner)
  | case3 =>
    cases h
    rfl

/-- The kinds of words that are looked at for their text. -/
def TokenKind.isWord (kind : TokenKind) : Bool := kind = .identifier || kind = .function

theorem markKind_isWord {c : Char} {kind : TokenKind} (h : markKind c = some kind) :
    kind.isWord = false := by
  simp only [markKind] at h
  split at h <;> cases h <;> rfl

theorem cutOperator_spec {l : Lexeme} (h : cutOperator chars = some l) :
    l.chars ++ l.rest = chars ∧ l.kind.isWord = false := by
  simp only [cutOperator] at h
  split at h
  · next found hfound =>
    cases h
    obtain ⟨op, _, hop⟩ := List.exists_of_findSome?_eq_some hfound
    obtain ⟨rest, hrest, rfl⟩ := Option.map_eq_some_iff.mp hop
    exact ⟨List.isPrefixOf?_eq_some_iff_append_eq.mp hrest, rfl⟩
  · split at h <;> cases h <;> exact ⟨rfl, rfl⟩

/-- The characters start with their first lexeme, and words are kept apart by their text. -/
theorem cut_spec {l : Lexeme} (h : cut chars = .ok l) :
    l.chars ++ l.rest = chars ∧
      (l.kind.isWord → l.chars ≠ [] ∧ wordKind l.chars = l.kind) := by
  have hnoWord : ∀ {kind : TokenKind}, kind.isWord = false → kind.isWord →
      l.chars ≠ [] ∧ wordKind l.chars = kind := fun hnone hword => by
    rw [hnone] at hword
    cases hword
  simp only [cut] at h
  split at h
  · cases h
    exact ⟨rfl, hnoWord rfl⟩
  · next c rest =>
    split at h
    · cases h
      exact ⟨congrArg (c :: ·) List.takeWhile_append_dropWhile,
        fun _ => ⟨List.cons_ne_nil _ _, rfl⟩⟩
    · split at h
      · cases h
        exact ⟨congrArg (c :: ·) List.takeWhile_append_dropWhile, hnoWord rfl⟩
      · split at h
        · split at h
          · next tail after htail =>
            cases h
            exact ⟨congrArg (c :: ·) (stringTail_append htail), hnoWord rfl⟩
          · cases h
        · split at h
          · next kind hmark =>
            cases h
            exact ⟨rfl, hnoWord (markKind_isWord hmark)⟩
          · split at h
            · next found =>
              cases h
              obtain ⟨happend, hkind⟩ := cutOperator_spec found
              exact ⟨happend, hnoWord hkind⟩
            · cases h

theorem wordKind_function {word : List Char} (h : wordKind word = .function) :
    String.ofList word = "function" := by
  rw [wordKind] at h
  cases hfound : keywords.lookup (String.ofList word) with
  | none =>
    rw [hfound] at h
    cases h
  | some kind =>
    rw [hfound] at h
    obtain ⟨before, after, hkeywords, -⟩ := List.lookup_eq_some_iff.mp hfound
    have hmem : (String.ofList word, kind) ∈ keywords := by
      rw [hkeywords]
      exact List.mem_append_right _ List.mem_cons_self
    rw [show kind = .function from h] at hmem
    simpa [keywords] using hmem

theorem scan_cutFrom {r after : Remainder} {t : Token} (h : scan r = .ok (t, after))
    (hof : r.Of source) : t.CutFrom source ∧ after.Of source := by
  rw [scan] at h
  split at h
  · cases h
  · next offset chars hgap =>
    split at h
    · cases h
    · next lexeme hcut =>
      cases h
      obtain ⟨hchars, hword⟩ := cut_spec hcut
      have hleft := skipGap_of hgap hof
      rw [← hchars] at hleft
      have htext : lexeme.kind ≠ .string → lexeme.text = lexeme.chars := fun hkind => if_neg hkind
      refine ⟨⟨fun hkind => ?_, fun hkind => ?_, fun hkind => ?_⟩, hleft.drop _⟩
      · obtain ⟨before, hsource, hoffset⟩ := hleft
        refine ⟨before, lexeme.rest, ?_, ?_⟩
        · rw [String.toList_ofList, htext hkind, List.append_assoc]
          exact hsource
        · rw [String.toList_ofList, htext hkind, ← hoffset]
      · have hkind : lexeme.kind = .identifier := hkind
        rw [htext (by simp [hkind])]
        simpa using (hword (by simp [hkind, TokenKind.isWord])).1
      · have hkind : lexeme.kind = .function := hkind
        rw [htext (by simp [hkind])]
        exact wordKind_function ((hword (by simp [hkind, TokenKind.isWord])).2.trans hkind)

/-- What holds of each next token, as long as it goes on to hold of what is left, holds of all. -/
theorem forall_scanUpTo {Left : Remainder → Prop} {Has : Token → Prop}
    (hscan : ∀ r t after, Left r → scan r = .ok (t, after) → Has t ∧ Left after) (fuel : Nat)
    {r : Remainder} (hr : Left r) : ∀ t ∈ (scanUpTo fuel r).tokens, Has t := by
  induction fuel generalizing r with
  | zero => simp [scanUpTo]
  | succ fuel ih =>
    intro t ht
    rw [scanUpTo] at ht
    split at ht
    · simp at ht
    · next token after htoken =>
      obtain ⟨hhas, hafter⟩ := hscan r token after hr htoken
      split at ht
      · rw [List.mem_singleton.mp ht]
        exact hhas
      · rcases List.mem_cons.mp ht with rfl | ht
        · exact hhas
        · exact ih hafter t ht

/-- All tokens of a source are cut out of it. -/
theorem tokenize_cutFrom (source : String) :
    ∀ t ∈ (tokenize source).tokens, t.CutFrom source.toList :=
  forall_scanUpTo (fun _ _ _ hof h => scan_cutFrom h hof) _ ⟨[], rfl, rfl⟩

/-- The bytes of a source in a span. -/
def bytesAt (source : String) (span : Span) : ByteArray :=
  source.toUTF8.extract span.start span.stop

theorem size_utf8Encode (chars : List Char) : chars.utf8Encode.size = byteLength chars := by
  induction chars with
  | nil => rfl
  | cons c rest ih =>
    rw [List.utf8Encode_cons, ByteArray.size_append, ih, List.utf8Encode_singleton]
    simp [byteLength]

theorem OccursAt.bytes {source text : String} {span : Span}
    (h : OccursAt source.toList span text.toList) :
    bytesAt source span = text.toUTF8 ∧ span.start ≤ span.stop ∧
      span.stop ≤ source.utf8ByteSize := by
  obtain ⟨before, after, hsource, rfl⟩ := h
  have hbytes : source.toUTF8 = before.utf8Encode ++ text.toUTF8 ++ after.utf8Encode := by
    rw [String.toUTF8, ← String.utf8Encode_toList, hsource]
    simp only [List.utf8Encode_append, String.utf8Encode_toList, String.toUTF8]
  have htext : text.toUTF8.size = byteLength text.toList := by
    rw [String.toUTF8, ← String.utf8Encode_toList, size_utf8Encode]
  have hsize : source.utf8ByteSize =
      byteLength before + byteLength text.toList + byteLength after := by
    rw [← String.size_toByteArray, ← String.utf8Encode_toList, size_utf8Encode, hsource]
    simp only [byteLength_append]
  refine ⟨?_, Nat.le_add_right _ _, ?_⟩
  · have hdrop := ByteArray.extract_append_size_add' (i := 0) (j := byteLength text.toList)
      (a := before.utf8Encode) (b := text.toUTF8 ++ after.utf8Encode) (size_utf8Encode before).symm
    rw [Nat.add_zero] at hdrop
    rw [bytesAt, hbytes, ByteArray.append_assoc, hdrop]
    exact ByteArray.extract_append_eq_left htext.symm
  · rw [hsize]
    exact Nat.le_add_right _ _

end RefCheck.Script
