import RefCheck.Proofs.Text.Lines

/-!
# Offsets and positions

A text is its lines with what ends them, and a line map knows where they start. So it gives every
line back without its end, and the position of an offset says just as much as the offset: the offset
can be found again from it, and positions are ordered as offsets are (`ofSource_exact`).
-/

namespace RefCheck.Text

open LineMap

/-- What ends a line in front of other characters: a line feed, a carriage return with its line
feed, or a carriage return that no line feed follows. -/
inductive Terminator : (ending after : List Char) → Prop
  | feed {after : List Char} : Terminator ['\n'] after
  | both {after : List Char} : Terminator ['\r', '\n'] after
  | lone {after : List Char} : after.head? ≠ some '\n' → Terminator ['\r'] after

/-- A line that is not the last one, with what ends it. -/
structure Row where
  line : List Char
  ending : List Char

def Row.chars (r : Row) : List Char := r.line ++ r.ending

/-- A text is taken apart into rows and a last line. -/
inductive Lines : (cs : List Char) → (rows : List Row) → (last : List Char) → Prop
  | last {line : List Char} : (∀ c ∈ line, isLineEnd c = false) → Lines line [] line
  | row {line ending rest : List Char} {rows : List Row} {last : List Char} :
      (∀ c ∈ line, isLineEnd c = false) → Terminator ending rest → Lines rest rows last →
      Lines (line ++ ending ++ rest) (⟨line, ending⟩ :: rows) last

/-- The offsets at which the ends of rows end. -/
def endsFrom (offset : Nat) : List Row → List Nat
  | [] => []
  | r :: rest => (offset + byteLength r.chars) :: endsFrom (offset + byteLength r.chars) rest

variable {cs line ending rest last before after : List Char} {rows : List Row} {offset : Nat}

theorem Terminator.isLineEnd (h : Terminator ending after) : ∀ c ∈ ending, isLineEnd c := by
  cases h <;> simp [LineMap.isLineEnd]

theorem Terminator.byteLength_pos (h : Terminator ending after) : 0 < byteLength ending := by
  cases h <;> decide

theorem Terminator.startsAfter (h : Terminator ending after) (offset : Nat) :
    startsAfter offset (ending ++ after) =
      (offset + byteLength ending) :: startsAfter (offset + byteLength ending) after := by
  cases h with
  | feed => rfl
  | both => rfl
  | lone hhead => simp [LineMap.startsAfter, hhead, byteLength]

/-- Characters before an offset go on behind what the text starts with, or take fewer bytes. -/
theorem append_cut {first second : List Char} (h : first ++ second = before ++ after) :
    (∃ more, before = first ++ more ∧ second = more ++ after) ∨
      byteLength before < byteLength first := by
  rcases List.append_eq_append_iff.mp h with hmore | ⟨more, rfl, hafter⟩
  · exact .inl hmore
  · cases more with
    | nil => exact .inl ⟨[], by simp, by simpa using hafter.symm⟩
    | cons c more =>
      have hpos := c.utf8Size_pos
      right
      simp only [byteLength_append, byteLength]
      omega

/-- Among ascending numbers, those up to a bound come first. -/
theorem length_takeWhile_le {xs : List Nat} {bound : Nat} (h : xs.Pairwise (· < ·)) :
    (xs.takeWhile (· ≤ bound)).length = xs.countP (· ≤ bound) := by
  induction h with
  | nil => rfl
  | @cons x rest hx _ ih =>
    by_cases hle : x ≤ bound
    · rw [List.takeWhile_cons_of_pos (by simpa using hle),
        List.countP_cons_of_pos (by simpa using hle), List.length_cons, ih]
    · have hnone : rest.countP (· ≤ bound) = 0 := by
        rw [List.countP_eq_zero]
        intro y hy
        have hlt := hx y hy
        simp only [decide_eq_true_eq]
        omega
      rw [List.takeWhile_cons_of_neg (by simpa using hle),
        List.countP_cons_of_neg (by simpa using hle), hnone]
      rfl

theorem head_le_of_countP {x y : Nat} {ys : List Nat} (hys : ∀ z ∈ ys, y < z)
    (h : 0 < (y :: ys).countP (· ≤ x)) : y ≤ x := by
  obtain ⟨z, hz, hzx⟩ := List.countP_pos_iff.mp h
  rw [decide_eq_true_eq] at hzx
  rcases List.mem_cons.mp hz with rfl | hz
  · exact hzx
  · exact (hys z hz).le.trans hzx

/-- Ascending numbers are known from how many of them there are up to each bound. -/
theorem eq_of_countP_le {xs ys : List Nat} (hxs : xs.Pairwise (· < ·)) (hys : ys.Pairwise (· < ·))
    (h : ∀ bound, xs.countP (· ≤ bound) = ys.countP (· ≤ bound)) : xs = ys := by
  have hself : ∀ (x : Nat) (rest : List Nat), 0 < (x :: rest).countP (· ≤ x) := by
    intro x rest
    rw [List.countP_cons_of_pos (by simp)]
    omega
  induction hxs generalizing ys with
  | nil =>
    cases ys with
    | nil => rfl
    | cons y ys => exact absurd (h y) (hself y ys).ne
  | @cons x xs hx _ ih =>
    cases hys with
    | nil => exact absurd (h x) (hself x xs).ne'
    | @cons y ys hy hys =>
      have hle : y ≤ x := head_le_of_countP hy (h x ▸ hself x xs)
      have hge : x ≤ y := head_le_of_countP hx ((h y).symm ▸ hself y ys)
      obtain rfl : x = y := by omega
      rw [ih hys]
      intro bound
      have hboth := h bound
      rw [List.countP_cons, List.countP_cons] at hboth
      omega

/-- The line with a number, where the starts of the lines and the end of the text are known. -/
def lineAt (cs : List Char) (starts : List Nat) (stop k : Nat) : Option (List Char) :=
  starts[k]?.bind fun start => (slice cs start (starts[k + 1]?.getD stop)).map trimLineEnd

namespace Lines

/-- Every text has lines. -/
theorem exists_of (cs : List Char) : ∃ rows last, Lines cs rows last := by
  fun_induction lineEnds cs with
  | case1 => exact ⟨[], [], .last (List.forall_mem_nil _)⟩
  | case2 rest ih =>
    obtain ⟨rows, last, hrest⟩ := ih
    exact ⟨⟨[], _⟩ :: rows, last, .row (List.forall_mem_nil _) .both hrest⟩
  | case3 c rest hpair hend ih =>
    obtain ⟨rows, last, hrest⟩ := ih
    have hterminator : Terminator [c] rest := by
      simp only [LineMap.isLineEnd, Bool.or_eq_true, decide_eq_true_eq] at hend
      rcases hend with rfl | rfl
      · exact .feed
      · refine .lone fun hhead => ?_
        obtain ⟨tail, htail⟩ := List.head?_eq_some_iff.mp hhead
        exact hpair tail rfl htail
    exact ⟨⟨[], _⟩ :: rows, last, .row (List.forall_mem_nil _) hterminator hrest⟩
  | case4 c rest _ hplain ih =>
    obtain ⟨rows, last, hrest⟩ := ih
    have hc : LineMap.isLineEnd c = false := by simpa using hplain
    cases hrest with
    | last hline => exact ⟨[], _, .last (List.forall_mem_cons.mpr ⟨hc, hline⟩)⟩
    | @row line _ _ rows _ hline hending hbehind =>
      exact ⟨⟨c :: line, _⟩ :: rows, last,
        .row (List.forall_mem_cons.mpr ⟨hc, hline⟩) hending hbehind⟩

theorem whole (h : Lines cs rows last) : rows.flatMap Row.chars ++ last = cs := by
  induction h with
  | last => rfl
  | row _ _ _ ih => rw [List.flatMap_cons, List.append_assoc, ih, Row.chars]

theorem plain (h : Lines cs rows last) :
    ∀ line ∈ rows.map Row.line ++ [last], ∀ c ∈ line, isLineEnd c = false := by
  induction h with
  | last hline => simpa using hline
  | row hline _ _ ih => exact List.forall_mem_cons.mpr ⟨hline, ih⟩

theorem startsAfter_eq (h : Lines cs rows last) (offset : Nat) :
    startsAfter offset cs = endsFrom offset rows := by
  induction h generalizing offset with
  | last hline => exact startsAfter_plain hline
  | @row line ending rest rows last hline hending _ ih =>
    have hseam : line.getLast? = some '\r' → (ending ++ rest).head? ≠ some '\n' := by
      intro hlast
      have hplain := hline '\r' (List.mem_of_getLast? hlast)
      cases hplain
    rw [List.append_assoc, startsAfter_append hseam, startsAfter_plain hline, List.nil_append,
      hending.startsAfter, ih, endsFrom, Row.chars, byteLength_append, Nat.add_assoc]

theorem starts_eq {source : String} (h : Lines source.toList rows last) :
    (ofSource source).starts = 0 :: endsFrom 0 rows := by
  rw [ofSource, h.startsAfter_eq]

/-- Lines end one behind the other. -/
theorem ascending (h : Lines cs rows last) (offset : Nat) :
    (offset :: endsFrom offset rows).Pairwise (· < ·) := by
  induction h generalizing offset with
  | last => exact List.pairwise_singleton _ _
  | @row line ending rest rows last _ hending _ ih =>
    have hpos := hending.byteLength_pos
    have hlater := ih (offset + byteLength (Row.chars ⟨line, ending⟩))
    refine List.pairwise_cons.mpr ⟨fun x hx => ?_, hlater⟩
    have hstop : offset < offset + byteLength (Row.chars ⟨line, ending⟩) := by
      simp only [Row.chars, byteLength_append]
      omega
    rcases List.mem_cons.mp hx with rfl | hx
    · exact hstop
    · exact hstop.trans ((List.pairwise_cons.mp hlater).1 x hx)

/-- What stands before an offset is what leads to the start of its line, and what stands on the line
before it. Its line is found by counting the lines that have ended by then. -/
theorem exists_lead (h : Lines cs rows last) (offset : Nat) (hcs : cs = before ++ after) :
    ∃ lead tail, before = lead ++ tail ∧
      (offset :: endsFrom offset rows)[(endsFrom offset rows).countP
        (· ≤ offset + byteLength before)]? = some (offset + byteLength lead) := by
  induction h generalizing offset before with
  | last => exact ⟨[], before, rfl, rfl⟩
  | @row line ending rest rows last hline hending hrest ih =>
    have hlater := (Lines.row hline hending hrest).ascending offset
    rcases append_cut hcs with ⟨more, rfl, hbehind⟩ | hshort
    · -- The whole row stands before the offset.
      obtain ⟨lead, tail, rfl, hlead⟩ := ih (offset + byteLength (line ++ ending)) hbehind
      refine ⟨line ++ ending ++ lead, tail, (List.append_assoc _ _ _).symm, ?_⟩
      have hended : decide (offset + byteLength (line ++ ending) ≤
          offset + byteLength (line ++ ending ++ (lead ++ tail))) = true := by
        simp only [byteLength_append, decide_eq_true_eq]
        omega
      rw [endsFrom, Row.chars, List.countP_cons, if_pos hended, List.getElem?_cons_succ,
        byteLength_append _ (lead ++ tail), byteLength_append _ lead, ← Nat.add_assoc,
        ← Nat.add_assoc]
      exact hlead
    · refine ⟨[], before, rfl, ?_⟩
      have hnone : (endsFrom offset (⟨line, ending⟩ :: rows)).countP
          (· ≤ offset + byteLength before) = 0 := by
        rw [List.countP_eq_zero]
        intro x hx
        have hfirst : offset + byteLength (line ++ ending) ≤ x := by
          rcases List.mem_cons.mp hx with rfl | hx
          · exact Nat.le_refl _
          · have htail := (List.pairwise_cons.mp hlater).2
            exact ((List.pairwise_cons.mp htail).1 x hx).le
        simp only [decide_eq_true_eq]
        omega
      rw [hnone]
      rfl

/-- The line of an offset counts the lines that have ended by then. -/
theorem lineOf_eq {source : String} (h : Lines source.toList rows last) (offset : Nat) :
    (ofSource source).lineOf offset = (endsFrom 0 rows).countP (· ≤ offset) := by
  have hsorted := (h.ascending 0).of_cons
  rw [lineOf, ofSource, h.startsAfter_eq, List.takeWhile_cons_of_pos (by simp),
    List.length_cons, Nat.add_sub_cancel]
  exact length_takeWhile_le hsorted

/-- Line maps with the same line for each offset are the same. -/
theorem ofSource_eq_of_lineOf {first text : String}
    (h : ∀ offset, (ofSource first).lineOf offset = (ofSource text).lineOf offset) :
    ofSource first = ofSource text := by
  obtain ⟨rows, last, hrows⟩ := exists_of first.toList
  obtain ⟨rows', last', hrows'⟩ := exists_of text.toList
  have hends : endsFrom 0 rows = endsFrom 0 rows' := by
    refine eq_of_countP_le (hrows.ascending 0).of_cons (hrows'.ascending 0).of_cons fun bound => ?_
    rw [← hrows.lineOf_eq, ← hrows'.lineOf_eq, h]
  have hstarts : (ofSource first).starts = (ofSource text).starts := by
    rw [hrows.starts_eq, hrows'.starts_eq, hends]
  exact congrArg LineMap.mk hstarts

/-- Each line is what stands between its start and the start of the next one, or the end. -/
theorem lineAt_eq (h : Lines cs rows last) (before : List Char) (k : Nat) :
    lineAt (before ++ cs) (byteLength before :: endsFrom (byteLength before) rows)
        (byteLength (before ++ cs)) k = (rows.map Row.line ++ [last])[k]? := by
  induction h generalizing before k with
  | @last line hline =>
    cases k with
    | zero =>
      have hslice := slice_append before line []
      rw [List.append_nil, ← byteLength_append] at hslice
      have htrim : trimLineEnd (line ++ []) = line :=
        IsLine.trimLineEnd_append hline (List.forall_mem_nil _)
      rw [List.append_nil] at htrim
      change (slice (before ++ line) (byteLength before) (byteLength (before ++ line))).map
        trimLineEnd = some line
      rw [hslice, Option.map_some, htrim]
    | succ k => rfl
  | @row line ending rest rows last hline hending _ ih =>
    cases k with
    | zero =>
      have hslice := slice_append before (line ++ ending) rest
      have htrim := IsLine.trimLineEnd_append hline hending.isLineEnd
      rw [List.append_assoc] at hslice
      change (slice (before ++ (line ++ ending ++ rest)) (byteLength before)
        (byteLength before + byteLength (line ++ ending))).map trimLineEnd = some line
      rw [hslice, Option.map_some, htrim]
    | succ k =>
      have hrest := ih (before ++ (line ++ ending)) k
      rw [byteLength_append before, List.append_assoc] at hrest
      exact hrest

theorem lineText_eq {source : String} (h : Lines source.toList rows last) (k : Nat) :
    (ofSource source).lineText source k =
      (rows.map Row.line ++ [last])[k]?.map String.ofList := by
  have hstarts : (ofSource source).starts =
      byteLength [] :: endsFrom (byteLength []) rows := h.starts_eq
  have hline := h.lineAt_eq [] k
  rw [List.nil_append, byteLength_toList] at hline
  rw [← hline, lineText, hstarts, lineAt]
  cases (byteLength [] :: endsFrom (byteLength []) rows)[k]? with
  | none => rfl
  | some start => simp [Function.comp_def]

end Lines

/-- An offset between two characters of a text, or at its start or end. -/
def IsBoundary (cs : List Char) (offset : Nat) : Prop :=
  ∃ before after, cs = before ++ after ∧ offset = byteLength before

/-- Positions in the order of reading: by lines, and on a line by characters. -/
def Position.Before (p q : Position) : Prop :=
  p.line < q.line ∨ p.line = q.line ∧ p.character < q.character

/-- The offset of a position: that of the start of its line, and the bytes of the characters that
come before it on the line. -/
def LineMap.offsetOf (m : LineMap) (source : String) (p : Position) : Nat :=
  let start := m.starts[p.line]?.getD 0
  start + byteLength (((dropBytes source.toList start).getD []).take p.character)

theorem Position.Before.asymm {p q : Position} (h : p.Before q) : ¬ q.Before p := by
  unfold Before at *
  omega

theorem Position.Before.irrefl (p : Position) : ¬ p.Before p := by
  unfold Before
  omega

/-- Of two starts of a text, one starts the other. -/
theorem append_eq_of_byteLength {first second : List Char}
    (h : first ++ second = before ++ after) (hbytes : byteLength first = byteLength before) :
    first = before := by
  rcases append_cut h with ⟨more, rfl, -⟩ | hshort
  · have hlength := length_le_byteLength more
    rw [byteLength_append] at hbytes
    have hnil : more = [] := List.length_eq_zero_iff.mp (by omega)
    rw [hnil, List.append_nil]
  · omega

namespace Lines

variable {source : String}

theorem position_eq (h : Lines source.toList rows last)
    (hsource : source.toList = before ++ after) :
    ∃ lead tail, before = lead ++ tail ∧
      (ofSource source).starts[(endsFrom 0 rows).countP (· ≤ byteLength before)]? =
        some (byteLength lead) ∧
      (ofSource source).position source (byteLength before) =
        ⟨(endsFrom 0 rows).countP (· ≤ byteLength before), tail.length⟩ := by
  obtain ⟨lead, tail, rfl, hlead⟩ := h.exists_lead 0 hsource
  rw [← h.starts_eq, Nat.zero_add, Nat.zero_add] at hlead
  refine ⟨lead, tail, rfl, hlead, ?_⟩
  have hsize : byteLength (lead ++ tail) ≤ source.utf8ByteSize := by
    rw [← byteLength_toList, hsource, byteLength_append _ after]
    omega
  have hstart : byteLength lead ≤ byteLength (lead ++ tail) := by
    rw [byteLength_append]
    omega
  have hslice : slice source.toList (byteLength lead) (byteLength (lead ++ tail)) = some tail := by
    rw [hsource, byteLength_append]
    exact slice_append lead tail after
  simp only [LineMap.position, h.lineOf_eq, hlead, Option.getD_some, Nat.min_eq_left hsize,
    Nat.min_eq_left hstart, hslice]

theorem offsetOf_position (h : Lines source.toList rows last)
    (hboundary : IsBoundary source.toList offset) :
    (ofSource source).offsetOf source ((ofSource source).position source offset) = offset := by
  obtain ⟨before, after, hsource, rfl⟩ := hboundary
  obtain ⟨lead, tail, rfl, hlead, hposition⟩ := h.position_eq hsource
  have hdrop : dropBytes source.toList (byteLength lead) = some (tail ++ after) := by
    rw [hsource, List.append_assoc, dropBytes_append]
  rw [hposition, offsetOf]
  simp only [hlead, Option.getD_some, hdrop, List.take_left]
  exact (byteLength_append lead tail).symm

/-- Of two offsets the one further on has the position further on. -/
theorem before_of_lt (h : Lines source.toList rows last) {first second : Nat}
    (hfirst : IsBoundary source.toList first) (hsecond : IsBoundary source.toList second)
    (hlt : first < second) :
    ((ofSource source).position source first).Before
      ((ofSource source).position source second) := by
  obtain ⟨before, after, hsource, rfl⟩ := hfirst
  obtain ⟨before', after', hsource', rfl⟩ := hsecond
  obtain ⟨lead, tail, rfl, hlead, hposition⟩ := h.position_eq hsource
  obtain ⟨lead', tail', rfl, hlead', hposition'⟩ := h.position_eq hsource'
  have hlines : (endsFrom 0 rows).countP (· ≤ byteLength (lead ++ tail)) ≤
      (endsFrom 0 rows).countP (· ≤ byteLength (lead' ++ tail')) := by
    apply List.countP_mono_left
    intro x _ hx
    simp only [decide_eq_true_eq] at hx ⊢
    omega
  rw [hposition, hposition', Position.Before]
  rcases hlines.lt_or_eq with hless | hsame
  · exact .inl hless
  · -- On the same line, more characters come before the second offset.
    refine .inr ⟨hsame, ?_⟩
    rw [hsame, hlead'] at hlead
    obtain rfl : lead' = lead := by
      have hboth : lead' ++ (tail' ++ after') = lead ++ (tail ++ after) := by
        rw [← List.append_assoc, ← List.append_assoc, ← hsource', ← hsource]
      exact append_eq_of_byteLength hboth (Option.some.inj hlead)
    rw [hsource, List.append_assoc, List.append_assoc, List.append_cancel_left_eq] at hsource'
    rcases append_cut hsource' with ⟨more, rfl, -⟩ | hshort
    · have hmore : more ≠ [] := by
        rintro rfl
        simp at hlt
      have hpos := List.length_pos_iff.mpr hmore
      simp only [List.length_append]
      omega
    · simp only [byteLength_append] at hlt
      omega

theorem before_iff (h : Lines source.toList rows last) {first second : Nat}
    (hfirst : IsBoundary source.toList first) (hsecond : IsBoundary source.toList second) :
    first < second ↔ ((ofSource source).position source first).Before
      ((ofSource source).position source second) := by
  refine ⟨h.before_of_lt hfirst hsecond, fun hbefore => ?_⟩
  rcases Nat.lt_trichotomy first second with hlt | rfl | hgt
  · exact hlt
  · exact absurd hbefore (Position.Before.irrefl _)
  · exact absurd (h.before_of_lt hsecond hfirst hgt) hbefore.asymm

/-- Behind the end nothing more is counted. -/
theorem position_past (h : Lines source.toList rows last)
    (hoffset : source.utf8ByteSize ≤ offset) :
    (ofSource source).position source offset =
      (ofSource source).position source source.utf8ByteSize := by
  have hall : ∀ bound, source.utf8ByteSize ≤ bound →
      (ofSource source).lineOf bound = (endsFrom 0 rows).length := by
    intro bound hbound
    rw [h.lineOf_eq, List.countP_eq_length]
    intro x hx
    rw [← h.startsAfter_eq] at hx
    have hx := (bounds_of_mem_startsAfter hx).2
    rw [Nat.zero_add, byteLength_toList] at hx
    simp only [decide_eq_true_eq]
    omega
  rw [position, position, hall offset hoffset, hall _ (Nat.le_refl _), Nat.min_eq_right hoffset,
    Nat.min_self]

end Lines

/-- What a line map says of a text with these rows and this last line. Lines start at zero and
behind each end of a line. The texts of the lines are the lines, which with their ends make up the
text and have none inside them. The position of an offset between characters counts the lines that
have ended by then, and the characters from the start of the line on; the offset is found again from
it, and the order of offsets is that of positions. Behind the end is where the end is. -/
structure LineMap.Exact (source : String) (rows : List Row) (last : List Char) : Prop where
  lines : Lines source.toList rows last
  starts : (ofSource source).starts = 0 :: endsFrom 0 rows
  ascending : (ofSource source).starts.Pairwise (· < ·)
  texts : ∀ k, (ofSource source).lineText source k =
    (rows.map Row.line ++ [last])[k]?.map String.ofList
  whole : rows.flatMap Row.chars ++ last = source.toList
  plain : ∀ line ∈ rows.map Row.line ++ [last], '\n' ∉ line ∧ '\r' ∉ line
  position : ∀ before after, source.toList = before ++ after → ∃ lead tail,
    before = lead ++ tail ∧
    (ofSource source).starts[(endsFrom 0 rows).countP (· ≤ byteLength before)]? =
      some (byteLength lead) ∧
    (ofSource source).position source (byteLength before) =
      ⟨(endsFrom 0 rows).countP (· ≤ byteLength before), tail.length⟩
  inverse : ∀ offset, IsBoundary source.toList offset →
    (ofSource source).offsetOf source ((ofSource source).position source offset) = offset
  order : ∀ first second, IsBoundary source.toList first → IsBoundary source.toList second →
    (first < second ↔ ((ofSource source).position source first).Before
      ((ofSource source).position source second))
  past : ∀ offset, source.utf8ByteSize ≤ offset →
    (ofSource source).position source offset =
      (ofSource source).position source source.utf8ByteSize

/-- Every source has its lines, and its line map is exact about them. -/
theorem ofSource_exact (source : String) : ∃ rows last, Exact source rows last := by
  obtain ⟨rows, last, h⟩ := Lines.exists_of source.toList
  refine ⟨rows, last, ?_⟩
  exact {
    lines := h
    starts := h.starts_eq
    ascending := by
      rw [h.starts_eq]
      exact h.ascending 0
    texts := h.lineText_eq
    whole := h.whole
    plain := fun line hline => by
      constructor
      · intro hmem
        cases h.plain line hline '\n' hmem
      · intro hmem
        cases h.plain line hline '\r' hmem
    position := fun _ _ => h.position_eq
    inverse := fun _ => h.offsetOf_position
    order := fun _ _ => h.before_iff
    past := fun _ => h.position_past }

/-- A line feed behind a carriage return ends the same line, and one in front of it another. -/
example : (ofSource "ä\r\nb\n\rc").starts = [0, 4, 6, 7] ∧
    (ofSource "ä\r\nb\n\rc").position "ä\r\nb\n\rc" 3 = ⟨0, 2⟩ := by decide +kernel

end RefCheck.Text
