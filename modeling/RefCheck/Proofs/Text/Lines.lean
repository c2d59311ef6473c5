import Mathlib.Data.List.DropRight
import RefCheck.Text.LineMap
import RefCheck.Proofs.Script.Slices

/-!
# Where the lines of a text are

A line is named by the characters before it, on it and after it. The line map of a text finds the
line of every offset on it, counts the characters before the offset, and gives the line back without
its end, whatever bytes the characters take.
-/

namespace RefCheck.Text

variable {cs before line after : List Char} {offset : Nat}

theorem byteLength_toList (text : String) : byteLength text.toList = text.utf8ByteSize := by
  rw [← String.size_toByteArray, ← String.utf8Encode_toList, Script.size_utf8Encode]

theorem length_le_byteLength (cs : List Char) : cs.length ≤ byteLength cs := by
  induction cs with
  | nil => exact Nat.le_refl 0
  | cons c rest ih =>
    have hc := c.utf8Size_pos
    simp only [List.length_cons, byteLength]
    omega

theorem byteLength_eq_length_iff : byteLength cs = cs.length ↔ ∀ c ∈ cs, c.utf8Size = 1 := by
  induction cs with
  | nil => simp [byteLength]
  | cons c rest ih =>
    have hc := c.utf8Size_pos
    have hrest := length_le_byteLength rest
    rw [List.forall_mem_cons, ← ih, byteLength, List.length_cons]
    omega

theorem dropBytes_append (before after : List Char) :
    dropBytes (before ++ after) (byteLength before) = some after := by
  induction before with
  | nil => simp [byteLength, dropBytes]
  | cons c rest ih =>
    obtain ⟨n, hn⟩ := Nat.exists_eq_add_one.mpr (Nat.add_pos_left c.utf8Size_pos (byteLength rest))
    have hle : c.utf8Size ≤ n + 1 := by omega
    have hleft : n + 1 - c.utf8Size = byteLength rest := by omega
    rw [byteLength, hn, List.cons_append, dropBytes, if_pos hle, hleft, ih]

theorem takeBytes_append (line after : List Char) :
    takeBytes (line ++ after) (byteLength line) = some line := by
  induction line with
  | nil => simp [byteLength, takeBytes]
  | cons c rest ih =>
    obtain ⟨n, hn⟩ := Nat.exists_eq_add_one.mpr (Nat.add_pos_left c.utf8Size_pos (byteLength rest))
    have hle : c.utf8Size ≤ n + 1 := by omega
    have hleft : n + 1 - c.utf8Size = byteLength rest := by omega
    rw [byteLength, hn, List.cons_append, takeBytes, if_pos hle, hleft, ih]
    rfl

theorem slice_append (before line after : List Char) :
    slice (before ++ line ++ after) (byteLength before) (byteLength before + byteLength line) =
      some line := by
  rw [slice, if_pos (Nat.le_add_right _ _), List.append_assoc, dropBytes_append, Option.bind_some,
    Nat.add_sub_cancel_left, takeBytes_append]

open LineMap

/-- How many lines end in a text. A carriage return and the line feed behind it end one line. -/
def lineEnds : List Char → Nat
  | [] => 0
  | '\r' :: '\n' :: rest => lineEnds rest + 1
  | c :: rest => if isLineEnd c then lineEnds rest + 1 else lineEnds rest

/-- A line of a text. Neither the end of the line before it nor its own is a part of it. -/
structure IsLine (source before line after : List Char) : Prop where
  whole : source = before ++ line ++ after
  opens : before = [] ∨ ∃ c ∈ before.getLast?, isLineEnd c
  apart : before.getLast? = some '\r' → (line ++ after).head? ≠ some '\n'
  plain : ∀ c ∈ line, isLineEnd c = false
  closes : ∀ c ∈ after.head?, isLineEnd c

theorem length_startsAfter (offset : Nat) (cs : List Char) :
    (startsAfter offset cs).length = lineEnds cs := by
  fun_induction lineEnds cs generalizing offset with
  | case1 => rfl
  | case2 rest ih => simp [startsAfter, ih]
  | case3 c rest hpair hend ih =>
    have hstart : (c = '\n' || (c = '\r' && rest.head? ≠ some '\n')) = true := by
      cases rest with
      | nil => simpa [isLineEnd] using hend
      | cons d rest =>
        have hd : c = '\r' → d ≠ '\n' := fun hc hd => hpair rest hc (by rw [hd])
        simp only [isLineEnd, Bool.or_eq_true, decide_eq_true_eq] at hend
        rcases hend with hend | hend
        · simp [hend]
        · simp [hend, hd hend]
    rw [startsAfter, if_pos hstart, List.length_cons, ih]
  | case4 c rest hpair hend ih =>
    have hstart : ¬(c = '\n' || (c = '\r' && rest.head? ≠ some '\n')) = true := by
      simp only [isLineEnd, Bool.or_eq_true, decide_eq_true_eq, not_or] at hend
      simp [hend.1, hend.2]
    rw [startsAfter, if_neg hstart, ih]

/-- Starts lie behind the offset that they are counted from, and not behind the text. -/
theorem bounds_of_mem_startsAfter {x : Nat} (h : x ∈ startsAfter offset cs) :
    offset < x ∧ x ≤ offset + byteLength cs := by
  induction cs generalizing offset with
  | nil => cases h
  | cons c rest ih =>
    have hc := c.utf8Size_pos
    have hrest : x ∈ startsAfter (offset + c.utf8Size) rest →
        offset < x ∧ x ≤ offset + byteLength (c :: rest) := by
      intro h
      have hx := ih h
      simp only [byteLength]
      omega
    simp only [startsAfter] at h
    split at h
    · rcases List.mem_cons.mp h with rfl | h
      · simp only [byteLength]
        omega
      · exact hrest h
    · exact hrest h

/-- The lines of two texts, one after the other, unless the seam parts a carriage return from its
line feed. -/
theorem startsAfter_append (h : before.getLast? = some '\r' → after.head? ≠ some '\n') :
    startsAfter offset (before ++ after) =
      startsAfter offset before ++ startsAfter (offset + byteLength before) after := by
  induction before generalizing offset with
  | nil => rfl
  | cons c rest ih =>
    have hhead : (c = '\n' || (c = '\r' && (rest ++ after).head? ≠ some '\n')) =
        (c = '\n' || (c = '\r' && rest.head? ≠ some '\n')) := by
      cases rest with
      | nil =>
        by_cases hc : c = '\r'
        · have hafter : after.head? ≠ some '\n' := h (by simp [hc])
          simp [hafter]
        · simp [hc]
      | cons d rest => rfl
    have hrest : rest.getLast? = some '\r' → after.head? ≠ some '\n' := by
      intro hlast
      refine h ?_
      rw [List.getLast?_cons, hlast]
      rfl
    simp only [List.cons_append, startsAfter, hhead, ih hrest, byteLength, Nat.add_assoc]
    split <;> rfl

theorem startsAfter_plain (h : ∀ c ∈ line, isLineEnd c = false) :
    startsAfter offset line = [] := by
  induction line generalizing offset with
  | nil => rfl
  | cons c rest ih =>
    have hc := h c List.mem_cons_self
    simp only [isLineEnd, Bool.or_eq_false_iff, decide_eq_false_iff_not] at hc
    simp [startsAfter, hc.1, hc.2, ih fun d hd => h d (List.mem_cons_of_mem c hd)]

/-- Right behind a text that ends with the end of a line, a line starts. -/
theorem getLast?_startsAfter (h : ∃ c ∈ cs.getLast?, isLineEnd c) :
    (startsAfter offset cs).getLast? = some (offset + byteLength cs) := by
  induction cs generalizing offset with
  | nil => simp at h
  | cons c rest ih =>
    cases rest with
    | nil =>
      have hc : isLineEnd c := by simpa using h
      simp only [isLineEnd, Bool.or_eq_true, decide_eq_true_eq] at hc
      rcases hc with rfl | rfl <;> rfl
    | cons d rest =>
      have hlast := @ih (offset + c.utf8Size) (by simpa using h)
      have hsum : offset + byteLength (c :: d :: rest) =
          offset + c.utf8Size + byteLength (d :: rest) := (Nat.add_assoc _ _ _).symm
      rw [hsum, startsAfter]
      split
      · rw [List.getLast?_cons, hlast]
        rfl
      · exact hlast

/-- What ends a line is nothing, or one or two line ends with the next line right behind them. -/
theorem head?_startsAfter (offset : Nat) (h : ∀ c ∈ after.head?, isLineEnd c) :
    ∃ ending rest, after = ending ++ rest ∧ (∀ c ∈ ending, isLineEnd c) ∧
      (startsAfter offset after).head?.getD (offset + byteLength after) =
        offset + byteLength ending := by
  cases after with
  | nil => exact ⟨[], [], rfl, nofun, rfl⟩
  | cons c rest =>
    have hc : isLineEnd c := h c rfl
    simp only [isLineEnd, Bool.or_eq_true, decide_eq_true_eq] at hc
    by_cases hpair : c = '\r' ∧ rest.head? = some '\n'
    · obtain ⟨rfl, hrest⟩ := hpair
      obtain ⟨rest, rfl⟩ : ∃ tail, rest = '\n' :: tail := by
        cases rest with
        | nil => cases hrest
        | cons d rest => exact ⟨rest, by rw [Option.some.inj hrest]⟩
      exact ⟨['\r', '\n'], rest, rfl, by simp [isLineEnd],
        by simp [startsAfter, byteLength, Nat.add_assoc]⟩
    · have hstart : (c = '\n' || (c = '\r' && rest.head? ≠ some '\n')) = true := by
        rcases hc with rfl | rfl
        · rfl
        · simpa using hpair
      refine ⟨[c], rest, rfl, by simpa [isLineEnd] using hc, ?_⟩
      rw [startsAfter, if_pos hstart]
      rfl

namespace IsLine

variable {source : String} {lead : List Char}

theorem starts_eq (h : IsLine source.toList before line after) :
    (ofSource source).starts = (0 :: startsAfter 0 before) ++
      startsAfter (byteLength before + byteLength line) after := by
  have hplain : line.getLast? = some '\r' → after.head? ≠ some '\n' := by
    intro hlast
    have hr := h.plain '\r' (List.mem_of_getLast? hlast)
    cases hr
  rw [ofSource, h.whole, List.append_assoc, startsAfter_append h.apart, startsAfter_append hplain,
    startsAfter_plain h.plain, Nat.zero_add]
  rfl

theorem length_starts (before : List Char) :
    (0 :: startsAfter 0 before).length = lineEnds before + 1 := by
  rw [List.length_cons, length_startsAfter]

theorem getElem?_starts (h : IsLine source.toList before line after) :
    (ofSource source).starts[lineEnds before]? = some (byteLength before) := by
  have hlast : (0 :: startsAfter 0 before).getLast? = some (byteLength before) := by
    rcases h.opens with rfl | hends
    · rfl
    · rw [List.getLast?_cons, getLast?_startsAfter hends, Nat.zero_add]
      rfl
  rw [List.getLast?_eq_getElem?, length_starts] at hlast
  rw [h.starts_eq, List.getElem?_append_left (by rw [length_starts]; omega)]
  exact hlast

/-- The line of every offset that is on it, its end included. -/
theorem lineOf_eq (h : IsLine source.toList before line after)
    (hstart : byteLength before ≤ offset)
    (hstop : offset ≤ byteLength before + byteLength line) :
    (ofSource source).lineOf offset = lineEnds before := by
  have hfirst : ∀ x ∈ 0 :: startsAfter 0 before, decide (x ≤ offset) = true := by
    intro x hx
    rcases List.mem_cons.mp hx with rfl | hx
    · simp
    · have hbound := bounds_of_mem_startsAfter hx
      simp only [decide_eq_true_eq]
      omega
  have hlater : (startsAfter (byteLength before + byteLength line) after).takeWhile
      (fun x => decide (x ≤ offset)) = [] := by
    rw [List.takeWhile_eq_nil_iff]
    intro hne hle
    have hbound := bounds_of_mem_startsAfter (List.get_mem _ ⟨0, hne⟩)
    simp only [decide_eq_true_eq] at hle
    omega
  rw [lineOf, h.starts_eq, List.takeWhile_append_of_pos hfirst, hlater, List.append_nil,
    length_starts]
  omega

theorem position_eq (h : IsLine source.toList before (lead ++ line) after) :
    (ofSource source).position source (byteLength before + byteLength lead) =
      ⟨lineEnds before, lead.length⟩ := by
  have hwhole : source.toList = before ++ lead ++ (line ++ after) := by
    rw [h.whole]
    simp
  have hsize : byteLength before + byteLength lead ≤ source.utf8ByteSize := by
    rw [← byteLength_toList, hwhole]
    simp only [byteLength_append]
    omega
  have hline : (ofSource source).lineOf (byteLength before + byteLength lead) =
      lineEnds before := by
    apply h.lineOf_eq
    · omega
    · rw [byteLength_append]
      omega
  simp only [LineMap.position, hline, h.getElem?_starts, Option.getD_some,
    Nat.min_eq_left hsize, Nat.min_eq_left (Nat.le_add_right _ _)]
  rw [hwhole, slice_append]
  rfl

theorem trimLineEnd_append {ending : List Char} (hline : ∀ c ∈ line, isLineEnd c = false)
    (hending : ∀ c ∈ ending, isLineEnd c) : trimLineEnd (line ++ ending) = line := by
  have hdrop : (line.reverse).dropWhile isLineEnd = line.reverse := by
    rw [List.dropWhile_eq_self_iff]
    intro hne hend
    have hplain := hline _ (List.mem_reverse.mp (List.get_mem _ ⟨0, hne⟩))
    cases hplain.symm.trans hend
  rw [trimLineEnd, List.reverse_append, List.dropWhile_append_of_pos, hdrop, List.reverse_reverse]
  intro c hc
  exact hending c (List.mem_reverse.mp hc)

theorem lineText_eq (h : IsLine source.toList before line after) :
    (ofSource source).lineText source (lineEnds before) = some (String.ofList line) := by
  obtain ⟨ending, rest, hafter, hends, hnext⟩ :=
    head?_startsAfter (byteLength before + byteLength line) h.closes
  have hwhole : source.toList = before ++ (line ++ ending) ++ rest := by
    rw [h.whole, hafter]
    simp
  have hsize : source.utf8ByteSize =
      byteLength before + byteLength line + byteLength after := by
    rw [← byteLength_toList, h.whole]
    simp only [byteLength_append]
  have hstop : (ofSource source).starts[lineEnds before + 1]?.getD source.utf8ByteSize =
      byteLength before + byteLength (line ++ ending) := by
    have hlen := length_starts before
    rw [h.starts_eq, List.getElem?_append_right (by omega), hlen, Nat.sub_self, hsize,
      ← List.head?_eq_getElem?, hnext, byteLength_append, Nat.add_assoc]
  rw [LineMap.lineText, h.getElem?_starts]
  simp only [hstop]
  rw [hwhole, slice_append, Option.map_some, trimLineEnd_append h.plain hends]

end IsLine

/-- What has no end of a line in it stands on one line. -/
theorem exists_isLine {source span : List Char} (hsource : source = before ++ span ++ after)
    (hne : span ≠ []) (hplain : ∀ c ∈ span, isLineEnd c = false) :
    ∃ earlier lead tail later, before = earlier ++ lead ∧
      IsLine source earlier (lead ++ (span ++ tail)) later := by
  let plain := fun c => !isLineEnd c
  have hbefore : before = before.rdropWhile plain ++ before.rtakeWhile plain :=
    List.rdropWhile_append_rtakeWhile.symm
  have hafter : after = after.takeWhile plain ++ after.dropWhile plain :=
    List.takeWhile_append_dropWhile.symm
  have hline : ∀ c ∈ before.rtakeWhile plain ++ (span ++ after.takeWhile plain),
      isLineEnd c = false := by
    intro c hc
    rcases List.mem_append.mp hc with hc | hc
    · simpa [plain] using List.mem_rtakeWhile_imp hc
    rcases List.mem_append.mp hc with hc | hc
    · exact hplain c hc
    · simpa [plain] using List.mem_takeWhile_imp hc
  refine ⟨before.rdropWhile plain, before.rtakeWhile plain, after.takeWhile plain,
    after.dropWhile plain, hbefore, ?_, ?_, ?_, hline, ?_⟩
  · rw [hsource]
    nth_rewrite 1 [hbefore, hafter]
    simp only [List.append_assoc]
  · by_cases hempty : before.rdropWhile plain = []
    · exact .inl hempty
    · have hlast := List.rdropWhile_last_not plain before hempty
      exact .inr ⟨_, List.getLast?_eq_getLast_of_ne_nil hempty, by simpa [plain] using hlast⟩
  · -- The line is not empty, and a line feed is no part of it.
    intro _ hhead
    have hmem : '\n' ∈ before.rtakeWhile plain ++ (span ++ after.takeWhile plain) := by
      apply List.mem_of_head?
      rw [List.head?_append] at hhead
      cases hfirst : (before.rtakeWhile plain ++ (span ++ after.takeWhile plain)).head? with
      | none => simp [hne] at hfirst
      | some c => simpa [hfirst] using hhead
    cases hline _ hmem
  · intro c hc
    have hnot := List.head?_dropWhile_not plain after
    rw [Option.mem_def.mp hc] at hnot
    simpa [plain] using hnot

end RefCheck.Text
