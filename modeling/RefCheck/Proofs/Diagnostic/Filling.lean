import Mathlib.Data.List.Basic
import RefCheck.Diagnostic.Template

/-!
# Templates are filled in one pass

A template is read once, from left to right: a number in braces that has an argument is replaced by
it, and every other character is copied. What was put in is never read again. So a template that is
put together from plain text and numbers with arguments becomes the plain text with the arguments in
between, whatever is written in them.
-/

namespace RefCheck.Diagnostic.Template

/-- Some decimal digits, at least one. -/
structure Numeral where
  digits : List Char
  nonempty : digits ≠ []
  decimal : ∀ c ∈ digits, c.isDigit

namespace Numeral

def value (n : Numeral) : Nat := Nat.ofDigitChars 10 n.digits 0

/-- The number in braces. -/
def group (n : Numeral) : List Char := '\x7b' :: (n.digits ++ ['\x7d'])

end Numeral

variable {args : List String} {n : Numeral} {rest after template filled : List Char} {c : Char}
  {arg : String} {skip : Nat}

/-- What a template becomes when it is read from left to right. -/
inductive Filled (args : List String) : (template filled : List Char) → Prop
  | nothing : Filled args [] []
  | argument {n : Numeral} {rest filled : List Char} (h : n.value < args.length) :
      Filled args rest filled → Filled args (n.group ++ rest) (args[n.value].toList ++ filled)
  | character {c : Char} {rest filled : List Char} :
      (∀ (n : Numeral) (after : List Char), c :: rest = n.group ++ after →
        args.length ≤ n.value) →
      Filled args rest filled → Filled args (c :: rest) (c :: filled)

/-- A part of a template: text in which no brace opens, or a number that has an argument. -/
inductive Piece (args : List String)
  | plain (text : List Char) (h : '\x7b' ∉ text)
  | argument (n : Numeral) (h : n.value < args.length)

namespace Piece

/-- How a part is written in a template. -/
def spelled : Piece args → List Char
  | plain text _ => text
  | argument n _ => n.group

/-- What a part stands for. -/
def meant : Piece args → List Char
  | plain text _ => text
  | argument n _ => args[n.value].toList

end Piece

/-- The digits of a number end where its brace closes. -/
theorem Numeral.takeWhile_digits (n : Numeral) (after : List Char) :
    (n.digits ++ '\x7d' :: after).takeWhile Char.isDigit = n.digits := by
  rw [List.takeWhile_append_of_pos n.decimal, List.takeWhile_cons_of_neg (by decide),
    List.append_nil]

theorem placeholder_eq_some : placeholder args rest = some (arg, skip) ↔
    ∃ (n : Numeral) (after : List Char), rest = n.digits ++ '\x7d' :: after ∧
      args[n.value]? = some arg ∧ skip = n.digits.length + 1 := by
  constructor
  · intro h
    rw [placeholder] at h
    split at h
    · next hclosed =>
      obtain ⟨hnonempty, hclosed⟩ := hclosed
      obtain ⟨_, harg, hpair⟩ := Option.map_eq_some_iff.mp h
      obtain ⟨rfl, rfl⟩ := Prod.mk.inj hpair
      have hdecimal : ∀ c ∈ rest.takeWhile Char.isDigit, c.isDigit :=
        List.all_eq_true.mp List.all_takeWhile
      obtain ⟨after, hafter⟩ := List.takeWhile_prefix (l := rest) Char.isDigit
      generalize rest.takeWhile Char.isDigit = digits at *
      obtain rfl := hafter
      have hnext : after.head? = some '\x7d' := by
        rwa [List.getElem?_append_right (Nat.le_refl _), Nat.sub_self,
          ← List.head?_eq_getElem?] at hclosed
      refine ⟨⟨digits, hnonempty, hdecimal⟩, after.tail, ?_, harg, rfl⟩
      rw [List.cons_head?_tail hnext]
    · cases h
  · rintro ⟨n, after, rfl, harg, rfl⟩
    have hclosed : (n.digits ++ '\x7d' :: after)[n.digits.length]? = some '\x7d' := by simp
    rw [placeholder, n.takeWhile_digits, if_pos ⟨n.nonempty, hclosed⟩]
    exact congrArg (Option.map fun arg => (arg, n.digits.length + 1)) harg

theorem placeholder_eq_none (h : ∀ (n : Numeral) (after : List Char),
    rest = n.digits ++ '\x7d' :: after → args.length ≤ n.value) : placeholder args rest = none := by
  cases hfound : placeholder args rest with
  | none => rfl
  | some found =>
    obtain ⟨n, after, hrest, harg, -⟩ := placeholder_eq_some.mp hfound
    rw [List.getElem?_eq_none (h n after hrest)] at harg
    cases harg

theorem fillFrom_append (passed rest : List Char) :
    fillFrom args passed.length (passed ++ rest) = fillFrom args 0 rest := by
  induction passed with
  | nil => rfl
  | cons c passed ih => exact ih

theorem fillFrom_group (h : n.value < args.length) (rest : List Char) :
    fillFrom args 0 (n.group ++ rest) = args[n.value].toList ++ fillFrom args 0 rest := by
  have hclosed : n.digits ++ '\x7d' :: rest = (n.digits ++ ['\x7d']) ++ rest := by simp
  have hfound : placeholder args (n.digits ++ '\x7d' :: rest) =
      some (args[n.value], (n.digits ++ ['\x7d']).length) :=
    placeholder_eq_some.mpr ⟨n, rest, rfl, List.getElem?_eq_getElem h, by simp⟩
  rw [hclosed] at hfound
  rw [Numeral.group, List.cons_append, fillFrom, if_pos rfl, hfound]
  exact congrArg _ (fillFrom_append (n.digits ++ ['\x7d']) rest)

theorem fillFrom_character (h : ∀ (n : Numeral) (after : List Char),
    c :: rest = n.group ++ after → args.length ≤ n.value) :
    fillFrom args 0 (c :: rest) = c :: fillFrom args 0 rest := by
  rw [fillFrom]
  split
  · next hopen =>
    have hnone : placeholder args rest = none := by
      refine placeholder_eq_none fun n after hrest => h n after ?_
      rw [hopen, hrest, Numeral.group, List.cons_append, List.append_assoc]
      rfl
    rw [hnone]
  · rfl

theorem fillFrom_plain {text : List Char} (h : '\x7b' ∉ text) (rest : List Char) :
    fillFrom args 0 (text ++ rest) = text ++ fillFrom args 0 rest := by
  induction text with
  | nil => rfl
  | cons c text ih =>
    rw [List.mem_cons, not_or] at h
    rw [List.cons_append, fillFrom, if_neg (Ne.symm h.1), ih h.2, List.cons_append]

theorem Filled.eq_fillFrom (h : Filled args template filled) :
    filled = fillFrom args 0 template := by
  induction h with
  | nothing => rfl
  | argument h _ ih => rw [fillFrom_group h, ih]
  | character h _ ih => rw [fillFrom_character h, ih]

/-- Every template can be read to its end: behind a number in braces less is left of it. -/
theorem filled_fillFrom (args : List String) (template : List Char) :
    Filled args template (fillFrom args 0 template) := by
  induction hlength : template.length using Nat.strongRecOn generalizing template with
  | ind length ih =>
    subst hlength
    by_cases hgroup : ∃ (n : Numeral) (after : List Char),
        template = n.group ++ after ∧ n.value < args.length
    · obtain ⟨n, after, rfl, hvalue⟩ := hgroup
      rw [fillFrom_group hvalue]
      have hshorter : after.length < (n.group ++ after).length := by
        rw [List.length_append, Numeral.group, List.length_cons]
        omega
      exact .argument hvalue (ih after.length hshorter after rfl)
    · cases template with
      | nil => exact .nothing
      | cons c rest =>
        have hplain : ∀ (n : Numeral) (after : List Char), c :: rest = n.group ++ after →
            args.length ≤ n.value :=
          fun n after heq => Nat.le_of_not_lt fun hvalue => hgroup ⟨n, after, heq, hvalue⟩
        rw [fillFrom_character hplain]
        exact .character hplain (ih rest.length (Nat.lt_succ_self _) rest rfl)

theorem filled_iff : Filled args template filled ↔ filled = fillFrom args 0 template :=
  ⟨Filled.eq_fillFrom, fun h => h ▸ filled_fillFrom args template⟩

theorem fillFrom_pieces (pieces : List (Piece args)) :
    fillFrom args 0 (pieces.flatMap Piece.spelled) = pieces.flatMap Piece.meant := by
  induction pieces with
  | nil => rfl
  | cons piece pieces ih =>
    rw [List.flatMap_cons, List.flatMap_cons, ← ih]
    cases piece with
    | plain text h => exact fillFrom_plain h _
    | argument n h => exact fillFrom_group h _

/-- No number in braces that has an argument stands anywhere in a template. -/
def Untouched (args : List String) (template : List Char) : Prop :=
  ∀ (n : Numeral) (before after : List Char), template = before ++ (n.group ++ after) →
    args.length ≤ n.value

theorem fillFrom_untouched (h : Untouched args template) : fillFrom args 0 template = template := by
  induction template with
  | nil => rfl
  | cons c rest ih =>
    have hrest : Untouched args rest := fun n before after heq =>
      h n (c :: before) after (congrArg (c :: ·) heq)
    rw [fillFrom_character fun n after heq => h n [] after heq, ih hrest]

/-- Filling a template is reading it once from left to right, with each number in braces that has an
argument replaced by it. Plain text and arguments come out as they went in, and a template without
such numbers as a whole. -/
theorem fill_one_pass (template : String) (args : List String) :
    (∀ filled : String,
      Filled args template.toList filled.toList ↔ filled = fill template args) ∧
    (∀ pieces : List (Piece args), template.toList = pieces.flatMap Piece.spelled →
      (fill template args).toList = pieces.flatMap Piece.meant) ∧
    (Untouched args template.toList → fill template args = template) := by
  refine ⟨fun filled => ?_, fun pieces hspelled => ?_, fun huntouched => ?_⟩
  · rw [filled_iff, fill, ← String.toList_inj, String.toList_ofList]
  · rw [fill, hspelled, fillFrom_pieces, String.toList_ofList]
  · rw [fill, fillFrom_untouched huntouched, String.ofList_toList]

/-- A brace without a number does not keep the next one from being read, zeros in front do not
matter, and an argument that looks like a number in braces stays. -/
example : fill "\x7b\x7b0\x7d \x7b1\x7b0\x7d\x7d \x7b001\x7d \x7b2\x7d \x7b\x7d"
      ["a\x7b1\x7d", "b"] =
    "\x7ba\x7b1\x7d \x7b1a\x7b1\x7d\x7d b \x7b2\x7d \x7b\x7d" := by decide +kernel

end RefCheck.Diagnostic.Template
