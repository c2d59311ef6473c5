import Mathlib.Data.List.Basic
import RefCheck.Json.Reader

/-!
# Quoted texts are read back

Each character between quotes is written so that one part is read for it, and this part stands for
the character whatever parts follow. So a quoted text is read back, up to its closing quote.
-/

namespace RefCheck.Json

variable {c e : Char} {n : Nat}

/-- A part that stands for a character, whatever parts follow it. -/
def Piece.Stands (p : Piece) (c : Char) : Prop :=
  ∀ ps, assemble (p :: ps) = (assemble ps).map (c :: ·)

/-- A part that is read from some characters, whatever follows them. -/
def Piece.Reads (p : Piece) (cs : List Char) : Prop :=
  ∀ rest, pieces (cs ++ rest) = (pieces rest).map fun (more, after) => (p :: more, after)

theorem stands_char (c : Char) : (Piece.char c).Stands c := fun _ => rfl

/-- Below the surrogates a unit is a character by itself. -/
theorem stands_unit (h : c.toNat < 0xD800) : (Piece.unit c.toNat).Stands c := by
  intro ps
  have hhigh : isHigh c.toNat = false := by
    simp only [isHigh, Bool.and_eq_false_imp, decide_eq_true_eq]
    omega
  have hlow : isLow c.toNat = false := by
    simp only [isLow, Bool.and_eq_false_imp, decide_eq_true_eq]
    omega
  cases ps with
  | nil => simp [assemble, hhigh, hlow]
  | cons p ps => cases p <;> simp [assemble, hhigh, hlow]

theorem reads_escape (he : e ≠ 'u') (hc : escape? e = some c) :
    (Piece.char c).Reads ['\\', e] := by
  intro rest
  have hword : pieces ('\\' :: e :: rest) = (escape? e).bind fun c =>
      (pieces rest).bind fun (more, after) => some (.char c :: more, after) := by
    rw [pieces]
    · rfl
    · intro _ _ _ _ _ heq
      exact fun _ => he heq
  rw [List.cons_append, List.singleton_append, hword, hc, Option.bind_some]
  cases pieces rest <;> rfl

theorem hexDigit?_hexChar : ∀ n < 16, hexDigit? (hexChar n) = some n := by decide

theorem reads_unit (h : n < 32) :
    (Piece.unit n).Reads ['\\', 'u', '0', '0', hexChar (n / 16), hexChar (n % 16)] := by
  intro rest
  have hzero : hexDigit? '0' = some 0 := rfl
  have hunit : unit? '0' '0' (hexChar (n / 16)) (hexChar (n % 16)) = some n := by
    rw [unit?, hzero, hexDigit?_hexChar _ (by omega), hexDigit?_hexChar _ (by omega)]
    simp only [Option.bind_eq_bind, Option.bind_some, Option.pure_def, Option.some.injEq]
    omega
  simp only [List.cons_append, List.nil_append]
  rw [pieces, hunit]
  cases pieces rest <;> rfl

theorem reads_plain (hquote : c ≠ '"') (hslash : c ≠ '\\') (h : ¬ c.toNat < 32) :
    (Piece.char c).Reads [c] := by
  intro rest
  rw [List.singleton_append, pieces, if_neg h]
  · cases pieces rest <;> rfl
  · exact hquote
  · exact fun _ _ _ _ _ hc _ => hslash hc
  · exact fun _ _ hc _ => hslash hc

/-- The characters that are escaped by a letter, or by themselves. -/
def escaped : List Char := ['"', '\\', '\x08', '\x0c', '\n', '\r', '\t']

theorem quoteChar_escaped (h : c ∈ escaped) :
    ∃ e, e ≠ 'u' ∧ escape? e = some c ∧ quoteChar c = ['\\', e] := by
  simp only [escaped, List.mem_cons, List.not_mem_nil, or_false] at h
  rcases h with rfl | rfl | rfl | rfl | rfl | rfl | rfl
  · exact ⟨'"', by decide, rfl, rfl⟩
  · exact ⟨'\\', by decide, rfl, rfl⟩
  · exact ⟨'b', by decide, rfl, rfl⟩
  · exact ⟨'f', by decide, rfl, rfl⟩
  · exact ⟨'n', by decide, rfl, rfl⟩
  · exact ⟨'r', by decide, rfl, rfl⟩
  · exact ⟨'t', by decide, rfl, rfl⟩

theorem quoteChar_of_not_mem (h : c ∉ escaped) : quoteChar c = if c.toNat < 32 then
    ['\\', 'u', '0', '0', hexChar (c.toNat / 16), hexChar (c.toNat % 16)] else [c] := by
  simp only [escaped, List.mem_cons, List.not_mem_nil, or_false, not_or] at h
  simp [quoteChar, h]

/-- Whatever is done to a character between quotes, it is read back. -/
theorem exists_piece (c : Char) : ∃ p : Piece, p.Stands c ∧ p.Reads (quoteChar c) := by
  by_cases hescaped : c ∈ escaped
  · obtain ⟨e, he, hc, hquote⟩ := quoteChar_escaped hescaped
    exact ⟨.char c, stands_char c, hquote ▸ reads_escape he hc⟩
  · rw [quoteChar_of_not_mem hescaped]
    split
    · next h => exact ⟨.unit c.toNat, stands_unit (by omega), reads_unit h⟩
    · next h =>
      have hquote : c ≠ '"' := by
        rintro rfl
        exact hescaped (by decide)
      have hslash : c ≠ '\\' := by
        rintro rfl
        exact hescaped (by decide)
      exact ⟨.char c, stands_char c, reads_plain hquote hslash h⟩

theorem exists_pieces (cs : List Char) : ∃ ps, assemble ps = some cs ∧
    ∀ rest, pieces (cs.flatMap quoteChar ++ '"' :: rest) = some (ps, rest) := by
  induction cs with
  | nil => exact ⟨[], rfl, fun _ => rfl⟩
  | cons c cs ih =>
    obtain ⟨ps, hassemble, hpieces⟩ := ih
    obtain ⟨p, hstands, hreads⟩ := exists_piece c
    refine ⟨p :: ps, ?_, fun rest => ?_⟩
    · rw [hstands, hassemble, Option.map_some]
    · rw [List.flatMap_cons, List.append_assoc, hreads, hpieces, Option.map_some]

/-- A quoted text is read back from behind its opening quote. -/
theorem text_quoted (t : String) (rest : List Char) :
    text (t.toList.flatMap quoteChar ++ '"' :: rest) = some (some t, rest) := by
  obtain ⟨ps, hassemble, hpieces⟩ := exists_pieces t.toList
  rw [text, hpieces, Option.map_some]
  dsimp only
  rw [hassemble, Option.map_some, String.ofList_toList]

end RefCheck.Json
