import Mathlib.Data.List.TakeWhile
import RefCheck.Proofs.Script.Parsed
import RefCheck.Proofs.Script.Slices

/-!
# Tokens one after the other

Every token but the end of input takes a character at least, so a source is cut up to its end or to
a fault, and each token starts where the one before it ended or later. With that the parser can be
followed from the source: `derives_of_parse`.
-/

namespace RefCheck.Script

open RefCheck.Text

variable {chars : List Char}

/-- A gap goes forward. -/
theorem skipGap_le {gap : Gap} {offset : Nat} {r : Remainder}
    (h : skipGap gap offset chars = .ok r) :
    offset ≤ r.offset ∧ r.chars.length ≤ chars.length := by
  fun_induction skipGap gap offset chars with
  | case1 | case5 | case6 =>
    cases h
    exact ⟨Nat.le_refl _, Nat.le_refl _⟩
  | case8 => cases h
  | case2 _ _ ih | case3 _ _ ih | case9 _ _ _ ih =>
    obtain ⟨hoffset, hlength⟩ := ih h
    simp only [List.length_cons]
    omega
  | case4 _ _ _ _ _ _ ih | case7 _ _ _ ih | case10 _ _ _ _ _ ih =>
    obtain ⟨hoffset, hlength⟩ := ih h
    simp only [List.length_cons]
    omega

/-- Which characters spell a token of a kind. -/
inductive Spells : TokenKind → List Char → Prop
  | word {c : Char} {tail : List Char} : isNameStart c → (∀ d ∈ tail, isNamePart d) →
      Spells (wordKind (c :: tail)) (c :: tail)
  | number {c : Char} {tail : List Char} : ¬ isNameStart c → c.isDigit →
      (∀ d ∈ tail, isNumberPart d) → Spells .number (c :: tail)
  | string {quote : Char} {tail : List Char} : quote = '"' ∨ quote = '\x27' →
      stringTail quote false tail = some (tail, []) → Spells .string (quote :: tail)
  | mark {c : Char} {kind : TokenKind} : markKind c = some kind → Spells kind [c]
  | operator {op : List Char} : op ∈ operators → Spells .operator op
  | equals : Spells .equals ['=']
  | bang : Spells .bang ['!']

/-- What stands behind a string does not matter for it. -/
theorem stringTail_alone {quote : Char} {escaped : Bool} {tail after : List Char}
    (h : stringTail quote escaped chars = some (tail, after)) :
    stringTail quote escaped tail = some (tail, []) := by
  fun_induction stringTail quote escaped chars generalizing tail after with
  | case1 | case4 => cases h
  | case2 c rest ih =>
    obtain ⟨⟨inner, left⟩, hinner, heq⟩ := Option.map_eq_some_iff.mp h
    cases heq
    rw [stringTail, ih hinner]
    rfl
  | case3 rest =>
    cases h
    rw [stringTail, if_pos rfl]
  | case5 c rest hquote hline ih =>
    obtain ⟨⟨inner, left⟩, hinner, heq⟩ := Option.map_eq_some_iff.mp h
    cases heq
    rw [stringTail, if_neg hquote, if_neg hline, ih hinner]
    rfl

theorem spells_of_cutOperator {l : Lexeme} (h : cutOperator chars = some l) :
    Spells l.kind l.chars := by
  unfold cutOperator at h
  split at h
  · next found hfound =>
    cases h
    obtain ⟨op, hop, hfits⟩ := List.exists_of_findSome?_eq_some hfound
    obtain ⟨rest, -, rfl⟩ := Option.map_eq_some_iff.mp hfits
    exact .operator hop
  · split at h
    · cases h
      exact .equals
    · cases h
      exact .bang
    · cases h

/-- The first lexeme spells its kind, unless nothing is left to be cut. -/
theorem spells_of_cut {l : Lexeme} (h : cut chars = .ok l) :
    l.kind = .endOfInput ∧ chars = [] ∨ Spells l.kind l.chars := by
  cases chars with
  | nil =>
    cases h
    exact .inl ⟨rfl, rfl⟩
  | cons c rest =>
    rw [cut] at h
    refine .inr ?_
    split at h
    · next hstart =>
      cases h
      exact .word hstart fun d => List.mem_takeWhile_imp
    · next hstart =>
      split at h
      · next hdigit =>
        cases h
        exact .number hstart hdigit fun d => List.mem_takeWhile_imp
      · split at h
        · next hquote =>
          split at h
          · next tail after htail =>
            cases h
            exact .string (by simpa using hquote) (stringTail_alone htail)
          · cases h
        · split at h
          · next kind hmark =>
            cases h
            exact .mark hmark
          · split at h
            · next lexeme hoperator =>
              cases h
              exact spells_of_cutOperator hoperator
            · cases h

/-- A word is a name unless it is listed among the keywords. -/
theorem wordKind_cases (word : List Char) :
    wordKind word = .identifier ∨ (String.ofList word, wordKind word) ∈ keywords := by
  rw [wordKind]
  cases hfound : keywords.lookup (String.ofList word) with
  | none => exact .inl rfl
  | some kind =>
    obtain ⟨before, after, hkeywords, -⟩ := List.lookup_eq_some_iff.mp hfound
    refine .inr ?_
    rw [hkeywords]
    exact List.mem_append_right _ List.mem_cons_self

namespace Spells

variable {kind : TokenKind} {word : List Char}

theorem ne_nil (h : Spells kind word) : word ≠ [] := by
  cases h with
  | operator hop =>
    have hsome : ∀ op ∈ operators, op ≠ [] := by decide
    exact hsome word hop
  | _ => exact List.cons_ne_nil _ _

/-- No characters spell the end of input. -/
theorem ne_end (h : Spells kind word) : kind ≠ .endOfInput := by
  cases h with
  | @word c tail =>
    rcases wordKind_cases (c :: tail) with hname | hkeyword
    · rw [hname]
      decide
    · have hall : ∀ entry ∈ keywords, entry.2 ≠ .endOfInput := by decide
      exact hall _ hkeyword
  | @mark c kind hmark =>
    rintro rfl
    unfold markKind at hmark
    split at hmark <;> cases hmark
  | _ => decide

end Spells

/-- A token goes forward, and takes a character unless it is the end of input. -/
theorem scan_forward {r after : Remainder} {t : Token} (h : scan r = .ok (t, after)) :
    r.offset ≤ t.span.start ∧ t.span.start ≤ t.span.stop ∧ t.span.stop = after.offset ∧
      (t.kind ≠ .endOfInput → after.chars.length < r.chars.length) := by
  rw [scan] at h
  split at h
  · cases h
  · next offset chars hgap =>
    split at h
    · cases h
    · next lexeme hcut =>
      cases h
      obtain ⟨hoffset, hlength⟩ := skipGap_le hgap
      refine ⟨hoffset, Nat.le_add_right _ _, rfl, fun hkind => ?_⟩
      have happend := congrArg List.length (cut_spec hcut).1
      have hspells := (spells_of_cut hcut).resolve_left fun h => hkind h.1
      have hpos := List.length_pos_iff.mpr hspells.ne_nil
      simp only [List.length_append] at happend
      change lexeme.rest.length < r.chars.length
      change chars.length ≤ r.chars.length at hlength
      omega

/-- With fuel enough a source is cut up to its end or to a fault. -/
theorem sealed_scanUpTo (fuel : Nat) {r : Remainder} (hfuel : r.chars.length < fuel) :
    Sealed (scanUpTo fuel r).fault (scanUpTo fuel r).tokens := by
  induction fuel generalizing r with
  | zero => exact absurd hfuel (Nat.not_lt_zero _)
  | succ fuel ih =>
    rw [scanUpTo]
    cases hscan : scan r with
    | error e => exact Option.some_ne_none e
    | ok next =>
      obtain ⟨token, after⟩ := next
      obtain ⟨-, -, -, hless⟩ := scan_forward hscan
      dsimp only
      by_cases hend : token.kind = .endOfInput
      · rw [if_pos hend, Sealed, if_pos hend]
        exact ⟨rfl, rfl⟩
      · rw [if_neg hend, Sealed, if_neg hend]
        exact ih (by have := hless hend; omega)

theorem sealed_tokenize (source : String) :
    Sealed (tokenize source).fault (tokenize source).tokens :=
  sealed_scanUpTo _ (Nat.lt_succ_self _)

/-- The end of input is found where nothing stands behind a gap. -/
theorem skipGap_of_end {r after : Remainder} {t : Token} (h : scan r = .ok (t, after))
    (hkind : t.kind = .endOfInput) :
    ∃ offset, skipGap .open r.offset r.chars = .ok ⟨offset, []⟩ ∧ t.span = ⟨offset, offset⟩ := by
  rw [scan] at h
  split at h
  · cases h
  · next offset chars hgap =>
    split at h
    · cases h
    · next lexeme hcut =>
      cases h
      obtain ⟨-, rfl⟩ := (spells_of_cut hcut).resolve_right fun h => h.ne_end hkind
      cases hcut
      exact ⟨offset, hgap, rfl⟩

/-- The end of input is behind the last byte of the source. -/
theorem scan_end {source : List Char} {r after : Remainder} {t : Token}
    (h : scan r = .ok (t, after)) (hkind : t.kind = .endOfInput) (hof : r.Of source) :
    t.span = ⟨byteLength source, byteLength source⟩ := by
  obtain ⟨offset, hgap, hspan⟩ := skipGap_of_end h hkind
  obtain ⟨before, hsource, hoffset⟩ := skipGap_of hgap hof
  rw [List.append_nil] at hsource
  rw [hspan, hsource, ← hoffset]

theorem tokenize_end (source : String) :
    ∀ t ∈ (tokenize source).tokens, t.kind = .endOfInput →
      t.span = ⟨source.utf8ByteSize, source.utf8ByteSize⟩ := by
  have hbytes : source.utf8ByteSize = byteLength source.toList := by
    rw [← String.size_toByteArray, ← String.utf8Encode_toList, size_utf8Encode]
  rw [hbytes]
  exact forall_scanUpTo (fun _ _ _ hof h => ⟨fun hkind => scan_end h hkind hof,
    (scan_cutFrom h hof).2⟩) _ ⟨[], rfl, rfl⟩

/-- Tokens that start one after the other. -/
def Ascending (ts : List Token) : Prop := ts.Pairwise fun t u => t.span.start ≤ u.span.start

theorem ascending_scanUpTo (fuel : Nat) (r : Remainder) :
    Ascending (scanUpTo fuel r).tokens ∧
      ∀ t ∈ (scanUpTo fuel r).tokens, r.offset ≤ t.span.start := by
  induction fuel generalizing r with
  | zero => exact ⟨List.Pairwise.nil, List.forall_mem_nil _⟩
  | succ fuel ih =>
    rw [scanUpTo]
    cases hscan : scan r with
    | error e => exact ⟨List.Pairwise.nil, List.forall_mem_nil _⟩
    | ok next =>
      obtain ⟨token, after⟩ := next
      obtain ⟨hstart, hspan, hstop, -⟩ := scan_forward hscan
      dsimp only
      by_cases hend : token.kind = .endOfInput
      · rw [if_pos hend]
        exact ⟨List.pairwise_singleton _ _, List.forall_mem_singleton.mpr hstart⟩
      · rw [if_neg hend]
        obtain ⟨hrest, hafter⟩ := ih after
        refine ⟨List.pairwise_cons.mpr ⟨fun t ht => ?_, hrest⟩,
          List.forall_mem_cons.mpr ⟨hstart, fun t ht => ?_⟩⟩
        · exact Nat.le_trans (hstop ▸ hspan) (hafter t ht)
        · exact Nat.le_trans (Nat.le_trans hstart (hstop ▸ hspan)) (hafter t ht)

theorem ascending_tokenize (source : String) : Ascending (tokenize source).tokens :=
  (ascending_scanUpTo _ _).1

/-- The tokens of a script that can be read end with the end of input, and are read as its
statements up to there. The script goes from the first of them to the end of input. -/
theorem placed_of_parse {source : String} {tree : Tree} (h : parse source = .ok tree) :
    ∃ used last, tokenize source = ⟨used ++ [last], none⟩ ∧ last.kind = .endOfInput ∧
      tree = .node .script "" ⟨(used.head?.getD last).span.start, last.span.stop⟩ tree.children ∧
      Derives .statements used tree.children := by
  rw [parse] at h
  have hsealed := sealed_tokenize source
  split at h
  · cases h
  · next htokens =>
    rw [htokens] at hsealed
    exact absurd rfl hsealed
  · next first ahead fault htokens =>
    rw [htokens] at hsealed
    split at h
    · next found rest hscript =>
      cases h
      obtain ⟨used, last, hfault, hused, hlast, htree, hbody⟩ :=
        derives_of_script hsealed hscript
      have hfirst : used.head?.getD last = first := by
        cases used with
        | nil => exact (List.cons.inj hused).1.symm
        | cons token rest => exact (List.cons.inj hused).1.symm
      refine ⟨used, last, ?_, hlast, hfirst ▸ htree, hbody⟩
      rw [htokens, ← hused, ← hfault]
      rfl
    · cases h

/-- The same without the place of the script. -/
theorem derives_of_parse {source : String} {tree : Tree} (h : parse source = .ok tree) :
    ∃ used last span, tokenize source = ⟨used ++ [last], none⟩ ∧ last.kind = .endOfInput ∧
      tree = .node .script "" span tree.children ∧ Derives .statements used tree.children := by
  obtain ⟨used, last, htokens, hlast, htree, hbody⟩ := placed_of_parse h
  exact ⟨used, last, _, htokens, hlast, htree, hbody⟩

end RefCheck.Script
