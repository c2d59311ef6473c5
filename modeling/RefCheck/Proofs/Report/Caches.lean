import RefCheck.Proofs.Report.Underline
import RefCheck.Proofs.Text.Positions

/-!
# What a reporter keeps

A reporter that is told the source of a file anew takes the new one, but it keeps the line map that
it made when it first showed a place in the file. So it shows what a fresh reporter shows that is
told the latest sources only, exactly if the line map of the text that the file had then is the one
of its present text (`format_fresh_iff`).
-/

namespace RefCheck.Reporter

open RefCheck.Text RefCheck.Text.LineMap

/-- What a reporter is asked to do: to take a source, or to show a diagnostic. -/
inductive Call
  | tell (file text : String)
  | report (d : Diagnostic)

/-- Whether the call tells the source of a file. -/
def Call.tells (file : String) : Call → Bool
  | .tell other _ => other = file
  | .report _ => false

def call (r : Reporter) : Call → Reporter
  | .tell file text => r.addSource file text
  | .report d => (r.format d).1

def after (r : Reporter) (calls : List Call) : Reporter := calls.foldl call r

/-- The calls that tell each file's source for the last time. -/
def latest : List Call → List Call
  | [] => []
  | .tell file text :: rest =>
    if rest.any (Call.tells file) then latest rest else .tell file text :: latest rest
  | .report _ :: rest => latest rest

/-- A reporter that was told the latest sources and has shown nothing. -/
def fresh (color : Bool) (disk : String → Option String) (calls : List Call) : Reporter :=
  (new color disk).after (latest calls)

/-- The text of a file after calls, if it has the known one before. -/
def present (file : String) : (known : Option String) → List Call → Option String
  | known, [] => known
  | known, .tell other text :: rest =>
    present file (if other = file then some text else known) rest
  | known, .report _ :: rest => present file known rest

/-- The text that a file had when a place in it was shown first, if it has the known one before all
calls. Without a text, no place is shown. -/
def firstShown (file : String) : (known : Option String) → List Call → Option String
  | _, [] => none
  | known, .tell other text :: rest =>
    firstShown file (if other = file then some text else known) rest
  | known, .report d :: rest =>
    if d.file = file then known.or (firstShown file known rest) else firstShown file known rest

variable {r s : Reporter} {file first text : String} {known other : Option String}
  {calls : List Call} {d : Diagnostic}

theorem text?_addSource (r : Reporter) (name text file : String) :
    (r.addSource name text).text? file = if name = file then some text else r.text? file := by
  rw [text?, text?, addSource]
  dsimp only
  by_cases h : name = file
  · subst h
    simp
  · rw [List.lookup_cons, beq_false_of_ne (Ne.symm h), if_neg h]

theorem text?_format (r : Reporter) (d : Diagnostic) (file : String) :
    (r.format d).1.text? file = r.text? file := by
  rw [format_fst]
  split
  · rfl
  · rw [text?, lookup_prepare, prepare, disk_withLineMap, disk_withSource]
    split
    · cases htext : r.text? file with
      | some text => rfl
      | none =>
        rw [text?, Option.or_eq_none_iff] at htext
        exact htext.2
    · rfl

/-- A reporter takes the text that a file has after all calls for its source. -/
theorem text?_after (r : Reporter) (calls : List Call) (file : String) :
    (r.after calls).text? file = present file (r.text? file) calls := by
  induction calls generalizing r with
  | nil => rfl
  | cons c rest ih =>
    rw [after, List.foldl_cons, ← after, ih]
    cases c with
    | tell name text => rw [call, text?_addSource, present]
    | report d => rw [call, text?_format, present]

/-- What was known does not matter once the source is told. -/
theorem present_of_told (h : calls.any (Call.tells file)) :
    present file known calls = present file other calls := by
  induction calls generalizing known other with
  | nil => cases h
  | cons c rest ih =>
    cases c with
    | report d => exact ih h
    | tell name text =>
      rw [present, present]
      by_cases hname : name = file
      · rw [if_pos hname, if_pos hname]
      · rw [if_neg hname, if_neg hname]
        rw [List.any_cons, Call.tells, decide_eq_false hname, Bool.false_or] at h
        exact ih h

theorem present_latest (file : String) (known : Option String) (calls : List Call) :
    present file known (latest calls) = present file known calls := by
  induction calls generalizing known with
  | nil => rfl
  | cons c rest ih =>
    cases c with
    | report d => exact ih known
    | tell name text =>
      rw [latest, present]
      split
      · next htold =>
        rw [ih]
        by_cases hname : name = file
        · subst hname
          exact present_of_told htold
        · rw [if_neg hname]
      · rw [present, ih]

theorem isSome_present (h : known.isSome) : (present file known calls).isSome := by
  induction calls generalizing known with
  | nil => exact h
  | cons c rest ih =>
    cases c with
    | report d => exact ih h
    | tell name text =>
      rw [present]
      apply ih
      split
      · rfl
      · exact h

/-- A file that was shown still has a text. -/
theorem isSome_present_of_firstShown (h : firstShown file known calls = some first) :
    (present file known calls).isSome := by
  induction calls generalizing known with
  | nil => cases h
  | cons c rest ih =>
    cases c with
    | tell name text => exact ih h
    | report d =>
      rw [present]
      cases known with
      | some text => exact isSome_present rfl
      | none =>
        rw [firstShown, Option.none_or, ite_self] at h
        exact ih h

theorem lookup_lineMaps_prepare (r : Reporter) (file : String) :
    (r.prepare file).lineMaps.lookup file =
      (r.lineMaps.lookup file).or ((r.text? file).map .ofSource) := by
  rw [prepare, lookup_withLineMap, if_pos rfl, lineMaps_withSource, lookup_withSource, if_pos rfl]

theorem lookup_lineMaps_format (hfile : file ≠ "") (r : Reporter) (d : Diagnostic) :
    (r.format d).1.lineMaps.lookup file =
      if d.file = file then (r.lineMaps.lookup file).or ((r.text? file).map .ofSource)
      else r.lineMaps.lookup file := by
  rw [format_fst]
  by_cases h : d.file = file
  · subst h
    rw [if_neg hfile, if_pos rfl, lookup_lineMaps_prepare]
  · rw [if_neg h]
    split
    · rfl
    · rw [prepare, lookup_withLineMap, if_neg (Ne.symm h), lineMaps_withSource]

/-- The line map of a file stays the one of the text that was shown first. -/
theorem lookup_lineMaps_after (hfile : file ≠ "") (r : Reporter) (calls : List Call) :
    (r.after calls).lineMaps.lookup file =
      (r.lineMaps.lookup file).or ((firstShown file (r.text? file) calls).map .ofSource) := by
  induction calls generalizing r with
  | nil => simp [after, firstShown]
  | cons c rest ih =>
    rw [after, List.foldl_cons, ← after, ih]
    cases c with
    | tell name text => rw [call, text?_addSource, firstShown, addSource]
    | report d =>
      rw [call, text?_format, lookup_lineMaps_format hfile, firstShown]
      split
      · rw [Option.or_assoc, Option.map_or]
      · rfl

theorem color_after (r : Reporter) (calls : List Call) : (r.after calls).color = r.color := by
  induction calls generalizing r with
  | nil => rfl
  | cons c rest ih =>
    rw [after, List.foldl_cons, ← after, ih]
    cases c with
    | tell name text => rfl
    | report d =>
      rw [call, format_fst]
      split
      · rfl
      · exact color_prepare r d.file

/-- The sources that are told last are told before anything is shown. -/
theorem firstShown_latest (file : String) (known : Option String) (calls : List Call) :
    firstShown file known (latest calls) = none := by
  induction calls generalizing known with
  | nil => rfl
  | cons c rest ih =>
    cases c with
    | report d => exact ih known
    | tell name text =>
      rw [latest]
      split
      · exact ih known
      · exact ih _

/-- What a reporter shows depends on its colours, and the source and line map of the file. -/
theorem format_congr (hcolor : r.color = s.color) (htext : r.text? d.file = s.text? d.file)
    (hmap : d.file ≠ "" → (r.prepare d.file).lineMaps.lookup d.file =
      (s.prepare d.file).lineMaps.lookup d.file) : (r.format d).2 = (s.format d).2 := by
  by_cases hfile : d.file = ""
  · simp only [format, hfile, if_pos, location, snippet?, category, styled, hcolor, true_or]
  · have hsource : (r.prepare d.file).sources.lookup d.file =
        (s.prepare d.file).sources.lookup d.file := by
      rw [lookup_prepare, lookup_prepare, if_pos rfl, if_pos rfl, htext]
    simp only [format, if_neg hfile, location, snippet?, position?, category, styled,
      color_prepare, hcolor, hsource, hmap hfile]

/-- A report on a place, which names the number of its line. -/
def placeOf (file : String) (offset : Nat) : Diagnostic := ⟨file, offset, 0, "", .error, "", []⟩

theorem format_placeOf {map : LineMap} (hfile : file ≠ "") (htext : r.text? file = some text)
    (hmap : (r.prepare file).lineMaps.lookup file = some map) (offset : Nat) :
    ∃ more, (r.format (placeOf file offset)).2.toList =
      file.toList ++ ':' :: (Nat.toDigits 10 (map.lineOf offset + 1) ++ ':' :: more) := by
  have hposition : (r.prepare file).position? file offset = some (map.position text offset) := by
    rw [position?, lookup_prepare, if_pos rfl, htext, hmap]
  have hsnippet : (r.prepare file).snippet? file offset 0 = none := by
    rw [snippet?, if_pos (Or.inr rfl)]
  have hline : (map.position text offset).line = map.lineOf offset := rfl
  rw [format, placeOf]
  dsimp only
  rw [if_neg hfile, location, if_neg hfile, hposition, hsnippet]
  dsimp only
  rw [hline, Nat.toString_eq_ofList_toDigits]
  simp only [String.toList_append, String.toList_ofList, List.append_assoc]
  exact ⟨_, rfl⟩

/-- Digits end where something else stands. -/
theorem toDigits_append_inj {m n : Nat} {more others : List Char}
    (h : Nat.toDigits 10 m ++ ':' :: more = Nat.toDigits 10 n ++ ':' :: others) : m = n := by
  have hdigits : ∀ k, ∀ c ∈ Nat.toDigits 10 k, decide (c ≠ ':') = true := by
    intro k c hc
    have hdigit := Nat.isDigit_of_mem_toDigits (by decide) (by decide) hc
    rw [decide_eq_true_eq]
    rintro rfl
    cases hdigit
  have htaken := congrArg (List.takeWhile (· ≠ ':')) h
  rw [List.takeWhile_append_of_pos (hdigits m), List.takeWhile_append_of_pos (hdigits n),
    List.takeWhile_cons_of_neg (by simp), List.takeWhile_cons_of_neg (by simp), List.append_nil,
    List.append_nil] at htaken
  calc
    m = Nat.ofDigitChars 10 (Nat.toDigits 10 m) 0 := Nat.ofDigitChars_ten_toDigits.symm
    _ = Nat.ofDigitChars 10 (Nat.toDigits 10 n) 0 := by rw [htaken]
    _ = n := Nat.ofDigitChars_ten_toDigits

section Fresh

variable {color : Bool} {disk : String → Option String}

theorem text?_after_new :
    ((new color disk).after calls).text? file = present file (disk file) calls :=
  text?_after _ _ _

theorem text?_fresh : (fresh color disk calls).text? file = present file (disk file) calls := by
  rw [fresh, text?_after_new, present_latest]

/-- To show a file, the line map of the text that was shown first is used, if there is one. -/
theorem lookup_lineMaps_after_new (color : Bool) (disk : String → Option String)
    (calls : List Call) (hfile : file ≠ "") :
    (((new color disk).after calls).prepare file).lineMaps.lookup file =
      ((firstShown file (disk file) calls).or (present file (disk file) calls)).map .ofSource := by
  rw [lookup_lineMaps_prepare, text?_after_new, lookup_lineMaps_after hfile, Option.map_or]
  rfl

theorem lookup_lineMaps_fresh (color : Bool) (disk : String → Option String)
    (calls : List Call) (hfile : file ≠ "") :
    ((fresh color disk calls).prepare file).lineMaps.lookup file =
      (present file (disk file) calls).map .ofSource := by
  rw [fresh, lookup_lineMaps_after_new _ _ _ hfile, firstShown_latest, present_latest,
    Option.none_or]

theorem format_fresh_of_lines (h : d.file = "" ∨ ∀ first ∈ firstShown d.file (disk d.file) calls,
    ∀ text ∈ present d.file (disk d.file) calls, ofSource first = ofSource text) :
    (((new color disk).after calls).format d).2 = ((fresh color disk calls).format d).2 := by
  have hcolor : ((new color disk).after calls).color = (fresh color disk calls).color := by
    rw [fresh, color_after, color_after]
  refine format_congr hcolor (text?_after_new.trans text?_fresh.symm) fun hfile => ?_
  rw [lookup_lineMaps_after_new _ _ _ hfile, lookup_lineMaps_fresh _ _ _ hfile]
  cases hfirst : firstShown d.file (disk d.file) calls with
  | none => rw [Option.none_or]
  | some first =>
    obtain ⟨text, htext⟩ := Option.isSome_iff_exists.mp (isSome_present_of_firstShown hfirst)
    have hsame := (h.resolve_left hfile) first hfirst text htext
    rw [htext, Option.some_or, Option.map_some, Option.map_some, hsame]

/-- Places are shown with the numbers of their lines, so line maps are the same if all places are
shown alike. -/
theorem lines_of_format_fresh (hfile : file ≠ "")
    (h : ∀ d : Diagnostic, d.file = file →
      (((new color disk).after calls).format d).2 = ((fresh color disk calls).format d).2)
    (hfirst : firstShown file (disk file) calls = some first)
    (htext : present file (disk file) calls = some text) : ofSource first = ofSource text := by
  refine Lines.ofSource_eq_of_lineOf fun offset => ?_
  have hstale := lookup_lineMaps_after_new color disk calls hfile
  have hfresh := lookup_lineMaps_fresh color disk calls hfile
  rw [hfirst] at hstale
  rw [htext] at hfresh
  obtain ⟨more, hshown⟩ := format_placeOf hfile (text?_after_new.trans htext) hstale offset
  obtain ⟨others, hother⟩ := format_placeOf hfile (text?_fresh.trans htext) hfresh offset
  rw [h (placeOf file offset) rfl, hother] at hshown
  have hdigits := (List.cons_inj_right _).mp (List.append_cancel_left hshown)
  have hline := toDigits_append_inj hdigits
  omega

end Fresh

/-- Sources may be told at any time, and diagnostics shown. Then the reporter shows the diagnostics
of a file like a fresh one with the latest sources, if and only if the file has no name, or the text
that it had when a place in it was first shown, if any, has the line map of its present text. -/
theorem format_fresh_iff (color : Bool) (disk : String → Option String) (calls : List Call)
    (file : String) :
    (∀ d : Diagnostic, d.file = file →
      (((new color disk).after calls).format d).2 = ((fresh color disk calls).format d).2) ↔
    file = "" ∨ ∀ first ∈ firstShown file (disk file) calls,
      ∀ text ∈ present file (disk file) calls, ofSource first = ofSource text := by
  constructor
  · intro h
    by_cases hfile : file = ""
    · exact .inl hfile
    · exact .inr fun first hfirst text htext => lines_of_format_fresh hfile h hfirst htext
  · rintro h d rfl
    exact format_fresh_of_lines h

/-- A source, a report on it, and the source again with a comment before it. -/
def retold : List Call :=
  [.tell "a.js" "x;\n", .report ⟨"a.js", 0, 1, "K", .error, "m", []⟩, .tell "a.js" "// y\nx;\n"]

/-- The same report for the line below the comment. -/
def belowComment : Diagnostic := ⟨"a.js", 5, 1, "K", .error, "m", []⟩

/-- Below a comment that was put before its line, a place is looked for among the lines that were
there without the comment. -/
theorem format_retold :
    (((new false fun _ => none).after retold).format belowComment).2 =
        "a.js:2:3 - error K: m\n    2   y\nx;\n          ~" ∧
      ((fresh false (fun _ => none) retold).format belowComment).2 =
        "a.js:2:1 - error K: m\n    2   x;\n        ~" ∧
      ¬ ∀ (color : Bool) (disk : String → Option String) (calls : List Call) (d : Diagnostic),
        (((new color disk).after calls).format d).2 = ((fresh color disk calls).format d).2 := by
  have hkept : (((new false fun _ => none).after retold).format belowComment).2 =
      "a.js:2:3 - error K: m\n    2   y\nx;\n          ~" := by
    decide +kernel
  have hfresh : ((fresh false (fun _ => none) retold).format belowComment).2 =
      "a.js:2:1 - error K: m\n    2   x;\n        ~" := by
    decide +kernel
  refine ⟨hkept, hfresh, fun h => ?_⟩
  have hsame := hkept.symm.trans ((h false (fun _ => none) retold belowComment).trans hfresh)
  exact absurd hsame (by decide)

theorem present_append (front back : List Call) :
    present file known (front ++ back) = present file (present file known front) back := by
  induction front generalizing known with
  | nil => rfl
  | cons c rest ih =>
    cases c with
    | tell name text => exact ih
    | report d => exact ih

theorem firstShown_append (front back : List Call) :
    firstShown file known (front ++ back) =
      (firstShown file known front).or (firstShown file (present file known front) back) := by
  induction front generalizing known with
  | nil => rfl
  | cons c rest ih =>
    cases c with
    | tell name text => exact ih
    | report d =>
      rw [List.cons_append, firstShown, firstShown, ih, present]
      split
      · rw [Option.or_assoc]
      · rfl

theorem firstShown_tells (sources : List (String × String)) :
    firstShown file known (sources.map fun source => .tell source.1 source.2) = none := by
  induction sources generalizing known with
  | nil => rfl
  | cons source rest ih => exact ih

theorem present_reports (shown : List Diagnostic) :
    present file known (shown.map .report) = known := by
  induction shown with
  | nil => rfl
  | cons d rest ih => exact ih

theorem firstShown_reports {shown : List Diagnostic}
    (h : firstShown file known (shown.map .report) = some first) : known = some first := by
  induction shown with
  | nil => cases h
  | cons d rest ih =>
    rw [List.map_cons, firstShown] at h
    split at h
    · cases known with
      | some text => exact h
      | none => exact ih h
    · exact ih h

/-- What is kept never shows if all sources are told before anything is shown. -/
theorem format_told_first (color : Bool) (disk : String → Option String)
    (sources : List (String × String)) (shown : List Diagnostic) (d : Diagnostic) :
    let calls := sources.map (fun source => .tell source.1 source.2) ++ shown.map .report
    (((new color disk).after calls).format d).2 = ((fresh color disk calls).format d).2 := by
  refine format_fresh_of_lines (.inr fun first hfirst text htext => ?_)
  rw [Option.mem_def, firstShown_append, firstShown_tells, Option.none_or] at hfirst
  rw [Option.mem_def, present_append, present_reports, firstShown_reports hfirst] at htext
  rw [Option.some.inj htext]

end RefCheck.Reporter
