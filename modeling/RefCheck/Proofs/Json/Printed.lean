import Mathlib.Data.List.Forall2
import RefCheck.Json.Printer
import RefCheck.Proofs.Json.Quoted

/-!
# Printed values are read back

Characters spell a value if it is read from them with one step for each character, whatever follows,
as long as no number could go on there. Quoted texts and naturals spell themselves, and printed
arrays and objects spell what their items and members spell.
-/

namespace RefCheck.Json

variable {c d : Char} {cs ds rest after : List Char} {v : Value} {vs : List Value}
  {printed : List (List Char)} {ms : List (Option String × Value)} {level fuel n : Nat}

/-- No number goes on with these characters. -/
def Sealed (rest : List Char) : Prop :=
  ∀ c ∈ rest.head?, c.isDigit = false ∧ c ≠ '.' ∧ c ≠ 'e' ∧ c ≠ 'E'

def Spells (cs : List Char) (v : Value) : Prop :=
  ∀ fuel rest, cs.length ≤ fuel → Sealed rest → value fuel (cs ++ rest) = some (v, rest)

def SpellsMember (cs : List Char) (m : Option String × Value) : Prop :=
  ∃ name text, cs = printMember name text ∧ m.1 = some name ∧ Spells text m.2

theorem sealed_nil : Sealed [] := nofun

theorem sealed_comma (rest : List Char) : Sealed (',' :: rest) := by
  intro c hc
  obtain rfl := Option.some.inj hc
  decide

theorem sealed_newline (level : Nat) (rest : List Char) : Sealed (newline level ++ rest) := by
  intro c hc
  obtain rfl := Option.some.inj hc
  decide

theorem skipBlanks_cons (h : isBlank c = false) (rest : List Char) :
    skipBlanks (c :: rest) = c :: rest := List.dropWhile_cons_of_neg (by rw [h]; decide)

theorem skipBlanks_newline (level : Nat) (cs : List Char) :
    skipBlanks (newline level ++ cs) = skipBlanks cs := by
  apply List.dropWhile_append_of_pos
  intro c hc
  rcases List.mem_cons.mp hc with rfl | hc
  · rfl
  · rw [(List.mem_replicate.mp hc).2]
    rfl

theorem value_congr (h : skipBlanks cs = skipBlanks ds) : value fuel cs = value fuel ds := by
  cases fuel with
  | zero => rfl
  | succ fuel => rw [value, value, h]

theorem value_newline (level : Nat) (cs : List Char) :
    value fuel (newline level ++ cs) = value fuel cs := value_congr (skipBlanks_newline level cs)

theorem quoted_append (t : String) (rest : List Char) :
    quoted t ++ rest = '"' :: (t.toList.flatMap quoteChar ++ '"' :: rest) := by
  rw [quoted, List.append_assoc]
  rfl

theorem spells_quoted (t : String) : Spells (quoted t) (.text (some t)) := by
  intro fuel rest hfuel _
  rw [quoted_append]
  cases fuel with
  | zero => cases hfuel
  | succ fuel => exact congrArg (Option.map _) (text_quoted t rest)

/-- Only zero is written with a zero in front. -/
theorem eq_zero_of_head?_toDigits (h : (Nat.toDigits 10 n).head? = some '0') : n = 0 := by
  induction n using Nat.strongRecOn with
  | ind n ih =>
    by_cases hlt : n < 10
    · rw [Nat.toDigits_of_lt_base hlt, List.head?_cons] at h
      have hdigit : ∀ k < 10, Nat.digitChar k = '0' → k = 0 := by decide
      exact hdigit n hlt (Option.some.inj h)
    · rw [Nat.toDigits_of_base_le (by decide) (Nat.le_of_not_lt hlt),
        List.head?_append_of_ne_nil _ Nat.toDigits_ne_nil] at h
      have hzero := ih (n / 10) (by omega) h
      omega

theorem digits_append (hdigits : ∀ d ∈ ds, d.isDigit) (hne : ds ≠ []) (h : Sealed rest) :
    digits (ds ++ rest) = some (ds, rest) := by
  have hends : rest.takeWhile Char.isDigit = [] ∧ rest.dropWhile Char.isDigit = rest := by
    cases rest with
    | nil => exact ⟨rfl, rfl⟩
    | cons c rest =>
      have hc : ¬ c.isDigit := by
        rw [(h c rfl).1]
        decide
      exact ⟨List.takeWhile_cons_of_neg hc, List.dropWhile_cons_of_neg hc⟩
  rw [digits, List.takeWhile_append_of_pos hdigits, List.dropWhile_append_of_pos hdigits, hends.1,
    hends.2, List.append_nil, if_neg hne]

theorem skipFraction_sealed (h : Sealed rest) : skipFraction rest = some rest := by
  unfold skipFraction
  split
  · exact absurd rfl (h '.' rfl).2.1
  · rfl

theorem skipExponent_sealed (h : Sealed rest) : skipExponent rest = some rest := by
  unfold skipExponent
  split
  · obtain ⟨-, -, hlower, hupper⟩ := h _ rfl
    rw [if_neg (not_or.mpr ⟨hlower, hupper⟩)]
  · rfl

/-- Digits that are sealed are a natural number, if no zero is needless among them. -/
theorem number_digits (hd : d ≠ '-') (hdigits : digits (d :: cs) = some (ds, rest))
    (hlead : ds.head? = some '0' → ds.length ≤ 1) (h : Sealed rest) :
    number (d :: cs) = some (.natural (Nat.ofDigitChars 10 ds 0), rest) := by
  unfold number
  split
  next negative signless hsign =>
    split at hsign
    · next hminus => exact absurd (List.cons.inj hminus).1 hd
    · obtain ⟨rfl, rfl⟩ := Prod.mk.inj hsign
      simpa [hdigits, skipFraction_sealed h, skipExponent_sealed h] using hlead

theorem ne_of_isDigit (hd : d.isDigit) (hc : c.isDigit = false) : d ≠ c := by
  rintro rfl
  rw [hc] at hd
  cases hd

theorem value_digit (hd : d.isDigit) (fuel : Nat) (rest : List Char) :
    value (fuel + 1) (d :: rest) = number (d :: rest) := by
  have hblank : isBlank d = false := by
    have hne : d ≠ ' ' ∧ d ≠ '\t' ∧ d ≠ '\n' ∧ d ≠ '\r' :=
      ⟨ne_of_isDigit hd rfl, ne_of_isDigit hd rfl, ne_of_isDigit hd rfl, ne_of_isDigit hd rfl⟩
    simp [isBlank, hne]
  rw [value, skipBlanks_cons hblank]
  split
  · next heq => cases heq
  · next heq => exact absurd (List.cons.inj heq).1 (ne_of_isDigit hd rfl)
  · next heq => exact absurd (List.cons.inj heq).1 (ne_of_isDigit hd rfl)
  · next heq => exact absurd (List.cons.inj heq).1 (ne_of_isDigit hd rfl)
  · next heq =>
    obtain ⟨rfl, rfl⟩ := List.cons.inj heq
    rw [if_pos (by rw [hd, Bool.or_true])]

theorem spells_natural (n : Nat) : Spells (printNatural n) (.natural n) := by
  intro fuel rest hfuel hrest
  have hprinted : printNatural n = Nat.toDigits 10 n := by
    rw [printNatural, Nat.toString_eq_ofList_toDigits, String.toList_ofList]
  have hall : ∀ d ∈ Nat.toDigits 10 n, d.isDigit :=
    fun d hd => Nat.isDigit_of_mem_toDigits (by decide) (by decide) hd
  have hlead : (Nat.toDigits 10 n).head? = some '0' → (Nat.toDigits 10 n).length ≤ 1 := by
    intro hzero
    rw [eq_zero_of_head?_toDigits hzero]
    decide
  have hread := digits_append hall Nat.toDigits_ne_nil hrest
  have hvalue : Nat.ofDigitChars 10 (Nat.toDigits 10 n) 0 = n := Nat.ofDigitChars_ten_toDigits
  rw [hprinted] at hfuel ⊢
  obtain ⟨d, ds, hds⟩ := List.exists_cons_of_ne_nil (Nat.toDigits_ne_nil (n := n) (b := 10))
  rw [hds] at hfuel hall hlead hread hvalue ⊢
  have hd : d.isDigit := hall d List.mem_cons_self
  cases fuel with
  | zero => cases hfuel
  | succ fuel =>
    have hnumber := number_digits (ne_of_isDigit hd rfl) hread hlead hrest
    rw [hvalue] at hnumber
    exact (value_digit hd fuel _).trans hnumber

/-- Printed items, each on a line of its own. -/
def lines (level : Nat) (printed : List (List Char)) : List Char :=
  List.intercalate [','] (printed.map (newline (level + 1) ++ ·))

theorem printList_eq (opening closing : Char) (level : Nat) (h : printed ≠ []) :
    printList opening closing level printed =
      opening :: (lines level printed ++ newline level ++ [closing]) := by
  cases printed with
  | nil => exact absurd rfl h
  | cons cs printed => rfl

theorem lines_singleton (level : Nat) (cs : List Char) :
    lines level [cs] = newline (level + 1) ++ cs := by
  rw [lines, List.map_singleton, List.intercalate_singleton]

theorem lines_cons (level : Nat) (cs : List Char) (h : printed ≠ []) :
    lines level (cs :: printed) =
      newline (level + 1) ++ cs ++ ',' :: lines level printed := by
  obtain ⟨ds, others, rfl⟩ := List.exists_cons_of_ne_nil h
  rw [lines, List.map_cons, List.map_cons, List.intercalate_cons_cons, List.append_assoc]
  rfl

theorem length_newline (level : Nat) : (newline level).length = 2 * level + 1 := by
  simp [newline]

/-- What is read from a line goes before what is read from the lines behind the next comma, and the
closing bracket ends it all. -/
structure Loops {α : Type} (loop : Nat → List Char → Option (List α × List Char)) (closing : Char)
    (Spelled : List Char → α → Prop) : Prop where
  last : ∀ {cs a} (fuel inner level : Nat) (rest : List Char), Spelled cs a → cs.length ≤ fuel →
    loop (fuel + 1) (newline inner ++ (cs ++ (newline level ++ closing :: rest))) = some ([a], rest)
  more : ∀ {cs a} (fuel inner : Nat) (rest : List Char), Spelled cs a → cs.length ≤ fuel →
    loop (fuel + 1) (newline inner ++ (cs ++ ',' :: rest)) =
      (loop fuel rest).map fun (items, after) => (a :: items, after)

theorem Loops.lines {α : Type} {loop : Nat → List Char → Option (List α × List Char)}
    {closing : Char} {Spelled : List Char → α → Prop} {as : List α}
    (hloop : Loops loop closing Spelled) (h : List.Forall₂ Spelled printed as) (hne : printed ≠ [])
    (hfuel : (lines level printed).length ≤ fuel) (rest : List Char) :
    loop fuel (lines level printed ++ (newline level ++ closing :: rest)) = some (as, rest) := by
  induction h generalizing fuel with
  | nil => exact absurd rfl hne
  | @cons cs a printed as hcs hprinted ih =>
    by_cases hlast : printed = []
    · subst hlast
      cases hprinted
      rw [lines_singleton, List.length_append, length_newline] at hfuel
      obtain ⟨fuel, rfl⟩ : ∃ k, fuel = k + 1 := ⟨fuel - 1, by omega⟩
      rw [lines_singleton, List.append_assoc]
      exact hloop.last fuel _ level rest hcs (by omega)
    · rw [lines_cons level cs hlast] at hfuel ⊢
      simp only [List.length_append, length_newline, List.length_cons] at hfuel
      obtain ⟨fuel, rfl⟩ : ∃ k, fuel = k + 1 := ⟨fuel - 1, by omega⟩
      rw [List.append_assoc, List.append_assoc, List.cons_append,
        hloop.more fuel _ _ hcs (by omega), ih hlast (by omega), Option.map_some]

theorem items_loops : Loops items ']' Spells where
  last fuel inner level rest hcs hfuel := by
    have hvalue := hcs fuel (newline level ++ ']' :: rest) hfuel (sealed_newline _ _)
    have hclosing : skipBlanks (newline level ++ ']' :: rest) = ']' :: rest := by
      rw [skipBlanks_newline, skipBlanks_cons rfl]
    simp only [items, value_newline, hvalue, hclosing]
  more fuel inner rest hcs hfuel := by
    have hvalue := hcs fuel (',' :: rest) hfuel (sealed_comma _)
    have hcomma : skipBlanks (',' :: rest) = ',' :: rest := skipBlanks_cons rfl rest
    simp only [items, value_newline, hvalue, hcomma]

theorem value_blank (cs : List Char) : value fuel (' ' :: cs) = value fuel cs := value_congr rfl

/-- Of a printed member the name is read, then a colon and the value. -/
theorem printMember_read (inner : Nat) (name : String) {text : List Char}
    (h : value fuel (text ++ rest) = some (v, rest)) : ∃ after,
    (expectChar '"' (skipBlanks (newline inner ++ (printMember name text ++ rest)))).bind
      Json.text = some (some name, after) ∧
    (expectChar ':' (skipBlanks after)).bind (value fuel) = some (v, rest) := by
  refine ⟨':' :: ' ' :: (text ++ rest), ?_, ?_⟩
  · rw [skipBlanks_newline, printMember, List.append_assoc, List.append_assoc, quoted_append,
      skipBlanks_cons rfl]
    exact text_quoted name _
  · rw [skipBlanks_cons rfl]
    exact (value_blank _).trans h

theorem members_loops : Loops members '\x7d' SpellsMember where
  last := by
    rintro _ ⟨_, v⟩ fuel inner level rest ⟨name, text, rfl, rfl, htext⟩ hfuel
    have hlength : text.length ≤ fuel := by
      simp only [printMember, List.length_append] at hfuel
      omega
    have hclosing : skipBlanks (newline level ++ '\x7d' :: rest) = '\x7d' :: rest := by
      rw [skipBlanks_newline, skipBlanks_cons rfl]
    obtain ⟨after, hname, hvalue⟩ :=
      printMember_read inner name (htext fuel _ hlength (sealed_newline level ('\x7d' :: rest)))
    simp only [members, hname, hvalue, hclosing]
  more := by
    rintro _ ⟨_, v⟩ fuel inner rest ⟨name, text, rfl, rfl, htext⟩ hfuel
    have hlength : text.length ≤ fuel := by
      simp only [printMember, List.length_append] at hfuel
      omega
    have hcomma : skipBlanks (',' :: rest) = ',' :: rest := skipBlanks_cons rfl rest
    obtain ⟨after, hname, hvalue⟩ :=
      printMember_read inner name (htext fuel _ hlength (sealed_comma rest))
    simp only [members, hname, hvalue, hcomma]

/-- An array with something in it is read item by item. -/
theorem value_bracket (h : ∀ after, skipBlanks cs ≠ ']' :: after) : value (fuel + 1) ('[' :: cs) =
    (items fuel cs).map fun (vs, after) => (Value.array vs, after) := by
  have hopening := skipBlanks_cons (c := '[') rfl cs
  -- by h the bracket does not close at once
  simp only [value, hopening]

theorem value_brace (h : ∀ after, skipBlanks cs ≠ '\x7d' :: after) :
    value (fuel + 1) ('\x7b' :: cs) =
      (members fuel cs).map fun (ms, after) => (Value.object ms, after) := by
  have hopening := skipBlanks_cons (c := '\x7b') rfl cs
  simp only [value, hopening]

/-- What is read from the first of some lines is what is read from its item. -/
theorem skipBlanks_lines (level : Nat) (cs : List Char) (printed : List (List Char))
    (rest : List Char) : ∃ more, Sealed more ∧
      skipBlanks (lines level (cs :: printed) ++ (newline level ++ rest)) =
        skipBlanks (cs ++ more) := by
  by_cases hlast : printed = []
  · refine ⟨newline level ++ rest, sealed_newline _ _, ?_⟩
    rw [hlast, lines_singleton, List.append_assoc, skipBlanks_newline]
  · refine ⟨',' :: (lines level printed ++ (newline level ++ rest)), sealed_comma _, ?_⟩
    rw [lines_cons level cs hlast, List.append_assoc, List.append_assoc, List.cons_append,
      skipBlanks_newline]

/-- What spells a value does not close an array. -/
theorem Spells.skipBlanks_ne (h : Spells cs v) (hrest : Sealed rest) (after : List Char) :
    skipBlanks (cs ++ rest) ≠ ']' :: after := by
  intro hclosing
  have hvalue := h (cs.length + 1) rest (Nat.le_succ _) hrest
  rw [value, hclosing] at hvalue
  cases hvalue

theorem SpellsMember.skipBlanks_ne {m : Option String × Value} (h : SpellsMember cs m)
    (rest after : List Char) : skipBlanks (cs ++ rest) ≠ '\x7d' :: after := by
  obtain ⟨name, text, rfl, -, -⟩ := h
  rw [printMember, List.append_assoc, List.append_assoc, quoted_append, skipBlanks_cons rfl]
  exact nofun

theorem spells_array (level : Nat) (h : List.Forall₂ Spells printed vs) :
    Spells (printArray level printed) (.array vs) := by
  intro fuel rest hfuel _
  cases fuel with
  | zero => cases printed <;> cases hfuel
  | succ fuel =>
    cases h with
    | nil => rfl
    | @cons cs v printed vs hcs hprinted =>
      have hne : cs :: printed ≠ [] := List.cons_ne_nil cs printed
      rw [printArray, printList_eq '[' ']' level hne] at hfuel ⊢
      simp only [List.length_cons, List.length_append] at hfuel
      obtain ⟨more, hmore, hfirst⟩ := skipBlanks_lines level cs printed (']' :: rest)
      have hlines : (lines level (cs :: printed)).length ≤ fuel := by omega
      have hread := items_loops.lines (.cons hcs hprinted) hne hlines rest
      rw [List.cons_append, List.append_assoc, List.append_assoc, List.singleton_append,
        value_bracket (hfirst ▸ hcs.skipBlanks_ne hmore), hread, Option.map_some]

theorem spells_object (level : Nat) (h : List.Forall₂ SpellsMember printed ms) :
    Spells (printObject level printed) (.object ms) := by
  intro fuel rest hfuel _
  cases fuel with
  | zero => cases printed <;> cases hfuel
  | succ fuel =>
    cases h with
    | nil => rfl
    | @cons cs m printed ms hcs hprinted =>
      have hne : cs :: printed ≠ [] := List.cons_ne_nil cs printed
      rw [printObject, printList_eq '\x7b' '\x7d' level hne] at hfuel ⊢
      simp only [List.length_cons, List.length_append] at hfuel
      obtain ⟨more, -, hfirst⟩ := skipBlanks_lines level cs printed ('\x7d' :: rest)
      have hlines : (lines level (cs :: printed)).length ≤ fuel := by omega
      have hread := members_loops.lines (.cons hcs hprinted) hne hlines rest
      rw [List.cons_append, List.append_assoc, List.append_assoc, List.singleton_append,
        value_brace (hfirst ▸ hcs.skipBlanks_ne more), hread, Option.map_some]

theorem read_of_spells {source : String} (h : Spells source.toList v) : read source = some v := by
  have hvalue := h (2 * source.toList.length + 2) [] (by omega) sealed_nil
  rw [List.append_nil] at hvalue
  rw [read, hvalue]
  rfl

end RefCheck.Json
