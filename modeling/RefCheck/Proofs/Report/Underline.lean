import RefCheck.Report
import RefCheck.Proofs.Text.Lines

/-!
# What a report underlines

Offsets and lengths of diagnostics count bytes, and an underline counts characters. Its first mark
stands right, since the characters before the span are counted; the number of marks is the number
of bytes of the span. The marks are those of the span exactly when each of its characters takes one
byte, or when nothing follows the span on its line. They stand below the span exactly when the
number of the line has at most three digits.
-/

namespace RefCheck.Reporter

open RefCheck.Text RefCheck.Text.LineMap RefCheck.Script

/-- The text that a reporter takes for the source of a file. -/
def text? (r : Reporter) (file : String) : Option String := (r.sources.lookup file).or (r.disk file)

/-- The reporter takes the text for the source of the file, also where it has made a line map. -/
structure Knows (r : Reporter) (file text : String) : Prop where
  source : r.text? file = some text
  lineMap : ∀ map, r.lineMaps.lookup file = some map →
    r.sources.lookup file = some text ∧ map = .ofSource text

variable {r : Reporter} {file other text : String}

theorem lookup_withSource (r : Reporter) (file other : String) :
    (r.withSource other).sources.lookup file =
      if file = other then r.text? file else r.sources.lookup file := by
  rw [withSource, text?]
  by_cases h : file = other
  · subst h
    cases hsource : r.sources.lookup file with
    | some text => simp [hsource]
    | none => cases hdisk : r.disk file <;> simp [hsource, addSource]
  · rw [if_neg h]
    split
    · rfl
    · split
      · rw [addSource, List.lookup_cons, beq_false_of_ne h]
      · rfl

theorem disk_withSource (r : Reporter) (file : String) : (r.withSource file).disk = r.disk := by
  rw [withSource]
  repeat' split
  all_goals rfl

theorem lineMaps_withSource (r : Reporter) (file : String) :
    (r.withSource file).lineMaps = r.lineMaps := by
  rw [withSource]
  repeat' split
  all_goals rfl

theorem sources_withLineMap (r : Reporter) (file : String) :
    (r.withLineMap file).sources = r.sources := by
  rw [withLineMap]
  split <;> rfl

theorem disk_withLineMap (r : Reporter) (file : String) : (r.withLineMap file).disk = r.disk := by
  rw [withLineMap]
  split <;> rfl

theorem lookup_withLineMap (r : Reporter) (file other : String) :
    (r.withLineMap other).lineMaps.lookup file =
      if file = other then
        (r.lineMaps.lookup file).or ((r.sources.lookup file).map .ofSource)
      else r.lineMaps.lookup file := by
  rw [withLineMap]
  by_cases h : file = other
  · subst h
    rw [if_pos rfl]
    cases hmap : r.lineMaps.lookup file <;> cases hsource : r.sources.lookup file <;>
      simp [hmap]
  · rw [if_neg h]
    split
    · rw [List.lookup_cons, beq_false_of_ne h]
    · rfl

theorem color_prepare (r : Reporter) (file : String) : (r.prepare file).color = r.color := by
  rw [prepare, withLineMap, withSource]
  repeat' split
  all_goals rfl

theorem lookup_prepare (r : Reporter) (file other : String) :
    (r.prepare other).sources.lookup file =
      if file = other then r.text? file else r.sources.lookup file := by
  rw [prepare, sources_withLineMap, lookup_withSource]

theorem Knows.prepare (h : r.Knows file text) (other : String) :
    (r.prepare other).Knows file text where
  source := by
    have htext := h.source
    rw [text?, lookup_prepare, Reporter.prepare, disk_withLineMap, disk_withSource]
    split
    · rw [htext]
      rfl
    · exact htext
  lineMap := by
    intro map hmap
    rw [Reporter.prepare, lookup_withLineMap, lineMaps_withSource] at hmap
    rw [lookup_prepare]
    by_cases hfile : file = other
    · rw [if_pos hfile, lookup_withSource, if_pos hfile, h.source] at hmap
      rw [if_pos hfile]
      cases hknown : r.lineMaps.lookup file with
      | some known =>
        rw [hknown] at hmap
        cases hmap
        exact ⟨h.source, (h.lineMap _ hknown).2⟩
      | none =>
        rw [hknown] at hmap
        cases hmap
        exact ⟨h.source, rfl⟩
    · rw [if_neg hfile] at hmap ⊢
      exact h.lineMap map hmap

/-- A file that the reporter has looked for has its source and its line map. -/
theorem Knows.lookups (h : r.Knows file text) :
    (r.prepare file).sources.lookup file = some text ∧
      (r.prepare file).lineMaps.lookup file = some (.ofSource text) := by
  constructor
  · rw [lookup_prepare, if_pos rfl, h.source]
  · rw [Reporter.prepare, lookup_withLineMap, if_pos rfl, lineMaps_withSource, lookup_withSource,
      if_pos rfl, h.source]
    cases hknown : r.lineMaps.lookup file with
    | some known =>
      rw [(h.lineMap _ hknown).2]
      rfl
    | none => rfl

theorem format_fst (r : Reporter) (d : Diagnostic) :
    (r.format d).1 = if d.file = "" then r else r.prepare d.file := rfl

/-- Nothing that is shown changes what a reporter knows, or its colours. -/
theorem Knows.render (h : r.Knows file text) (ds : List Diagnostic) :
    (r.render ds).1.Knows file text ∧ (r.render ds).1.color = r.color := by
  induction ds generalizing r with
  | nil => exact ⟨h, rfl⟩
  | cons d rest ih =>
    have hfirst : (r.format d).1.Knows file text ∧ (r.format d).1.color = r.color := by
      rw [format_fst]
      split
      · exact ⟨h, rfl⟩
      · exact ⟨h.prepare d.file, color_prepare r d.file⟩
    obtain ⟨hknows, hcolor⟩ := ih hfirst.1
    exact ⟨hknows, hcolor.trans hfirst.2⟩

/-- Blanks below what leads to a span, and marks below the span. -/
def marks (lead span : List Char) : List Char :=
  lead.map (fun c => if c = '\t' then '\t' else ' ') ++ List.replicate span.length '~'

variable {lead span tail : List Char}

theorem marks_inj {wider : List Char} :
    marks lead wider = marks lead span ↔ wider.length = span.length := by
  rw [marks, marks, List.append_cancel_left_eq, List.replicate_inj]
  simp

/-- As many characters are marked as the span has bytes, if there are as many. -/
theorem underline_eq (hsize : lead.length + byteLength span < UInt32.size) :
    underline (lead ++ (span ++ tail)) lead.length (byteLength span) =
      marks lead (span ++ tail.take (byteLength span - span.length)) := by
  have hlen := length_le_byteLength span
  have htake : (lead ++ (span ++ tail)).take (lead.length + byteLength span) =
      lead ++ (span ++ tail.take (byteLength span - span.length)) := by
    rw [List.take_length_add_append, List.take_append, List.take_of_length_le hlen]
  rw [underline, Nat.mod_eq_of_lt hsize, htake, List.zipIdx_append, List.map_append, marks]
  congr 1
  · apply List.ext_getElem
    · simp
    · intro i hi _
      have hlead : ¬lead.length ≤ i := by
        simp only [List.length_map, List.length_zipIdx] at hi
        omega
      simp [hlead]
  · apply List.ext_getElem
    · simp
    · intro i _ _
      simp

theorem marked_marks (hspan : span ≠ []) : marked (marks lead span) = marks lead span := by
  have hmark : '~' ∈ marks lead span := by
    simp [marks, hspan]
  rw [marked, if_pos (List.contains_iff_mem.mpr hmark)]

/-- The marks of the bytes are those of the characters if there are as many of both, or if there is
nothing else to mark. -/
theorem marks_eq_iff :
    marks lead (span ++ tail.take (byteLength span - span.length)) = marks lead span ↔
      tail = [] ∨ ∀ c ∈ span, c.utf8Size = 1 := by
  have hlen := length_le_byteLength span
  have htail : tail = [] ↔ tail.length = 0 := List.length_eq_zero_iff.symm
  rw [marks_inj, htail, ← byteLength_eq_length_iff, List.length_append, List.length_take]
  omega

/-- What stands before a line that is shown. -/
def gutter (number : Nat) : String := "  " ++ padded number ++ "   "

theorem length_padded (n : Nat) : (padded n).length = max 3 (toString n).length := by
  rw [padded, ← String.length_toList, String.toList_ofList, List.length_append,
    List.length_replicate, String.length_toList]
  omega

/-- Lines stand above their underlines up to the number 999. -/
theorem length_gutter_eq_iff (number : Nat) : (gutter number).length = 8 ↔ number < 1000 := by
  have hdigits : (toString number).length ≤ 3 ↔ number < 1000 := by
    rw [← String.length_toList, Nat.toString_eq_repr, Nat.toList_repr,
      Nat.length_toDigits_le_iff (by decide) (by decide)]
  have hgutter : (gutter number).length = 2 + (padded number).length + 3 := by
    rw [gutter, String.length_append, String.length_append]
    rfl
  rw [hgutter, length_padded, ← hdigits]
  omega

theorem position?_eq {before after : List Char} (hknows : r.Knows file text)
    (hline : IsLine text.toList before (lead ++ (span ++ tail)) after) :
    (r.prepare file).position? file (byteLength before + byteLength lead) =
      some ⟨lineEnds before, lead.length⟩ := by
  rw [position?, hknows.lookups.1, hknows.lookups.2]
  exact congrArg some hline.position_eq

/-- A report on what stands on one line shows the line and marks. -/
theorem format_snd {d : Diagnostic} {before after : List Char} (hfile : d.file ≠ "")
    (hcolor : r.color = false) (hknows : r.Knows d.file text)
    (hsize : text.utf8ByteSize < UInt32.size)
    (hline : IsLine text.toList before (lead ++ (span ++ tail)) after)
    (hstart : d.start = byteLength before + byteLength lead)
    (hlength : d.length = byteLength span) (hne : span ≠ []) :
    (r.format d).2 =
      d.file ++ ":" ++ toString (lineEnds before + 1) ++ ":" ++ toString (lead.length + 1) ++
        " - " ++ d.category.name ++ " " ++ d.key ++ ": " ++ d.message ++ "\n" ++
        gutter (lineEnds before + 1) ++ String.ofList (lead ++ (span ++ tail)) ++ "\n" ++
        "        " ++
        String.ofList (marks lead (span ++ tail.take (byteLength span - span.length))) := by
  have hplain : ∀ style text, (r.prepare d.file).styled style text = text := by
    intro style text
    rw [styled, color_prepare, hcolor]
    rfl
  have hposition := position?_eq hknows hline
  rw [← hstart] at hposition
  have hlocation : (r.prepare d.file).location d.file d.start =
      d.file ++ ":" ++ toString (lineEnds before + 1) ++ ":" ++ toString (lead.length + 1) := by
    rw [location, if_neg hfile, hposition]
  have hcategory : (r.prepare d.file).category d.category = d.category.name := hplain _ _
  have hbytes : byteLength (lead ++ span) ≤ text.utf8ByteSize := by
    rw [← byteLength_toList, hline.whole]
    simp only [byteLength_append]
    omega
  have hunder : underline (lead ++ (span ++ tail)) lead.length d.length =
      marks lead (span ++ tail.take (byteLength span - span.length)) := by
    have hlead := length_le_byteLength lead
    rw [byteLength_append] at hbytes
    rw [hlength, underline_eq (by omega)]
  have hlong : d.length ≠ 0 := by
    intro hzero
    have hspan := length_le_byteLength span
    rw [← hlength, hzero] at hspan
    exact hne (List.length_eq_zero_iff.mp (by omega))
  have hsnippet : (r.prepare d.file).snippet? d.file d.start d.length =
      some ("\n  " ++ padded (lineEnds before + 1) ++ "   " ++
        String.ofList (lead ++ (span ++ tail)) ++ "\n        " ++
        String.ofList (marks lead (span ++ tail.take (byteLength span - span.length)))) := by
    rw [snippet?, if_neg (by simp [hfile, hlong]), hposition, hknows.lookups.1, hknows.lookups.2]
    simp only [Option.bind_eq_bind, Option.bind_some, hline.lineText_eq, String.toList_ofList,
      hunder, marked_marks (show span ++ _ ≠ [] by simp [hne]), hplain]
    rfl
  have hrow : "\n  " = "\n" ++ "  " := rfl
  have hbelow : "\n        " = "\n" ++ "        " := rfl
  rw [format, if_neg hfile]
  simp only [hlocation, hcategory, hplain, hsnippet, Option.getD_some, gutter, hrow, hbelow,
    ← String.append_assoc]

/-- A report on a stretch of one line, uncoloured, whatever was shown before. -/
theorem format_underline {disk : String → Option String} {sources : List (String × String)}
    {d : Diagnostic} (shown : List Diagnostic) (hfile : d.file ≠ "")
    (htext : (sources.lookup d.file).or (disk d.file) = some text)
    (hsize : text.utf8ByteSize < UInt32.size)
    (hspan : OccursAt text.toList ⟨d.start, d.start + d.length⟩ span) (hlength : 0 < d.length)
    (hplain : ∀ c ∈ span, isLineEnd c = false) :
    ∃ before lead tail after, IsLine text.toList before (lead ++ (span ++ tail)) after ∧
      byteLength (before ++ lead) = d.start ∧
      (((⟨false, disk, sources, []⟩ : Reporter).render shown).1.format d).2 =
        d.file ++ ":" ++ toString (lineEnds before + 1) ++ ":" ++ toString (lead.length + 1) ++
          " - " ++ d.category.name ++ " " ++ d.key ++ ": " ++ d.message ++ "\n" ++
          gutter (lineEnds before + 1) ++ String.ofList (lead ++ (span ++ tail)) ++ "\n" ++
          "        " ++
          String.ofList (marks lead (span ++ tail.take (byteLength span - span.length))) ∧
      (marks lead (span ++ tail.take (byteLength span - span.length)) = marks lead span ↔
        tail = [] ∨ ∀ c ∈ span, c.utf8Size = 1) ∧
      ((gutter (lineEnds before + 1)).length = 8 ↔ lineEnds before + 1 < 1000) := by
  obtain ⟨before, after, hsource, hbytes⟩ := hspan
  injection hbytes with hstart hstop
  have hbytes : d.length = byteLength span := by omega
  have hne : span ≠ [] := by
    rintro rfl
    exact hlength.ne' hbytes
  obtain ⟨earlier, lead, tail, later, rfl, hline⟩ := exists_isLine hsource hne hplain
  have hknown : Reporter.Knows ⟨false, disk, sources, []⟩ d.file text := ⟨htext, nofun⟩
  obtain ⟨hknows, hcolor⟩ := hknown.render shown
  refine ⟨earlier, lead, tail, later, hline, hstart.symm, ?_, marks_eq_iff, length_gutter_eq_iff _⟩
  rw [byteLength_append] at hstart
  exact format_snd hfile hcolor hknows hsize hline hstart hbytes hne

/-- The second operand on a second line, behind a tab. -/
theorem format_underline_operand :
    OccursAt "x;\r\n\ty + z;\n".toList ⟨9, 9 + 1⟩ ['z'] ∧
      ∃ before lead tail after,
        IsLine "x;\r\n\ty + z;\n".toList before (lead ++ (['z'] ++ tail)) after ∧
        byteLength (before ++ lead) = 9 ∧
        (((⟨false, fun _ => none, [("a.js", "x;\r\n\ty + z;\n")], []⟩ : Reporter).render
            [⟨"a.js", 0, 1, "K", .error, "m", []⟩]).1.format
          ⟨"a.js", 9, 1, "K", .error, "m", []⟩).2 =
          "a.js" ++ ":" ++ toString (lineEnds before + 1) ++ ":" ++ toString (lead.length + 1) ++
            " - " ++ Category.error.name ++ " " ++ "K" ++ ": " ++ "m" ++ "\n" ++
            gutter (lineEnds before + 1) ++ String.ofList (lead ++ (['z'] ++ tail)) ++ "\n" ++
            "        " ++
            String.ofList
              (marks lead (['z'] ++ tail.take (byteLength ['z'] - ['z'].length))) ∧
        (marks lead (['z'] ++ tail.take (byteLength ['z'] - ['z'].length)) = marks lead ['z'] ↔
          tail = [] ∨ ∀ c ∈ ['z'], c.utf8Size = 1) ∧
        ((gutter (lineEnds before + 1)).length = 8 ↔ lineEnds before + 1 < 1000) := by
  have hspan : OccursAt "x;\r\n\ty + z;\n".toList ⟨9, 9 + 1⟩ ['z'] :=
    ⟨"x;\r\n\ty + ".toList, ";\n".toList, by decide, by decide⟩
  have hplain : ∀ c ∈ ['z'], isLineEnd c = false := by simp [isLineEnd]
  refine ⟨hspan, ?_⟩
  exact format_underline (d := ⟨"a.js", 9, 1, "K", .error, "m", []⟩)
    [⟨"a.js", 0, 1, "K", .error, "m", []⟩] (by decide) rfl (by decide) hspan (by decide) hplain

/-- Five characters with seven bytes get seven marks, two of them below what follows. -/
theorem format_umlauts :
    OccursAt "var b = größe + 1;\n".toList ⟨8, 8 + 7⟩ "größe".toList ∧
      ((⟨false, fun _ => none, [("a.js", "var b = größe + 1;\n")], []⟩ : Reporter).format
        ⟨"a.js", 8, 7, "JSC_UNDEFINED_VARIABLE", .error, "variable größe is undefined",
          ["größe"]⟩).2 =
        "a.js:1:9 - error JSC_UNDEFINED_VARIABLE: variable größe is undefined\n" ++
          "    1   var b = größe + 1;\n                ~~~~~~~" ∧
      marks "var b = ".toList "größe".toList = "        ~~~~~".toList := by
  refine ⟨⟨"var b = ".toList, " + 1;\n".toList, by decide, by decide⟩, ?_, by decide⟩
  decide +kernel

end RefCheck.Reporter
