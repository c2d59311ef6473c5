import RefCheck.Diagnostic.Json
import RefCheck.Proofs.Json.Printed

/-!
# Diagnostics survive JSON

Diagnostics that were printed as JSON are read back as they were, as long as their numbers have 32
bits. What is read is the object of each diagnostic: its layout does not matter, and what is off may
be called disabled in it.
-/

namespace RefCheck.Diagnostic

open RefCheck.Json

variable {d : Diagnostic} {word : String} {text : List Char} {v : Value}

/-- Arguments in JSON. They are left out when there are none. -/
def arguments? (d : Diagnostic) : Option Value :=
  if d.args = [] then none else some (.array (d.args.map fun arg => .text (some arg)))

/-- The object of a diagnostic, with a word for its category. -/
def json (word : String) (d : Diagnostic) : Value :=
  .object ([
    (some "file", .text (some d.file)),
    (some "start", .natural d.start),
    (some "length", .natural d.length),
    (some "key", .text (some d.key)),
    (some "category", .text (some word)),
    (some "message_text", .text (some d.message))] ++
    (d.arguments?.map fun args => (some "args", args)).toList)

/-- The numbers of a diagnostic have 32 bits. -/
def Sized (d : Diagnostic) : Prop := d.start < UInt32.size ∧ d.length < UInt32.size

/-- The words for the category of a diagnostic. -/
def CalledBy (d : Diagnostic) (word : String) : Prop :=
  word = d.category.name ∨ d.category = .off ∧ word = "disabled"

theorem spellsMember (name : String) (h : Spells text v) :
    SpellsMember (printMember name text) (some name, v) := ⟨name, text, rfl, rfl, h⟩

theorem spells_texts (level : Nat) (texts : List String) :
    Spells (printArray level (texts.map quoted)) (.array (texts.map fun t => .text (some t))) := by
  apply spells_array
  rw [List.forall₂_map_left_iff, List.forall₂_map_right_iff]
  exact List.forall₂_same.mpr fun t _ => spells_quoted t

theorem spells_print (level : Nat) (d : Diagnostic) :
    Spells (print level d) (d.json d.category.name) := by
  have hargs : List.Forall₂ SpellsMember (if d.args.isEmpty then [] else
        [printMember "args" (printArray (level + 1) (d.args.map quoted))])
      (d.arguments?.map fun args => (some "args", args)).toList := by
    rw [arguments?]
    cases h : d.args with
    | nil => exact .nil
    | cons arg args => exact .cons (spellsMember _ (spells_texts _ (arg :: args))) .nil
  exact spells_object level
    (.cons (spellsMember _ (spells_quoted _)) (.cons (spellsMember _ (spells_natural _))
      (.cons (spellsMember _ (spells_natural _)) (.cons (spellsMember _ (spells_quoted _))
        (.cons (spellsMember _ (spells_quoted _)) (.cons (spellsMember _ (spells_quoted _))
          hargs))))))

theorem read_printAll (ds : List Diagnostic) :
    Json.read (printAll ds) = some (.array (ds.map fun d => d.json d.category.name)) := by
  apply read_of_spells
  rw [printAll, String.toList_ofList]
  apply spells_array
  rw [List.forall₂_map_left_iff, List.forall₂_map_right_iff]
  exact List.forall₂_same.mpr fun d _ => spells_print 1 d

theorem CalledBy.ofName? (h : d.CalledBy word) : Category.ofName? word = some d.category := by
  rcases h with rfl | ⟨hoff, rfl⟩
  · cases d.category <;> rfl
  · rw [hoff]
    rfl

theorem asWord_natural {n : Nat} (h : n < UInt32.size) : (Value.natural n).asWord = some n :=
  if_pos h

theorem mapM_written {α β : Type} {read : β → Option α} {write : α → β} {as : List α}
    (h : ∀ a ∈ as, read (write a) = some a) : (as.map write).mapM read = some as := by
  induction as with
  | nil => rfl
  | cons a as ih =>
    obtain ⟨hfirst, hrest⟩ := List.forall_mem_cons.mp h
    rw [List.map_cons, List.mapM_cons, hfirst, ih hrest]
    rfl

theorem defaulted_arguments? (d : Diagnostic) :
    defaulted [] (Value.asList Value.asText) d.arguments? = some d.args := by
  rw [arguments?]
  split
  · next h => rw [defaulted, h]
  · exact mapM_written fun _ _ => rfl

/-- Each known field stands once in the object, and at most the arguments are not there. -/
theorem asRecord_json (word : String) (d : Diagnostic) : (d.json word).asRecord fieldNames = some
    [some (.text (some d.file)), some (.natural d.start), some (.natural d.length),
      some (.text (some d.key)), some (.text (some word)), some (.text (some d.message)),
      d.arguments?] := by
  rw [json]
  cases d.arguments? <;> rfl

theorem ofJson?_json (hsized : d.Sized) (hword : d.CalledBy word) :
    ofJson? (d.json word) = some d := by
  have hcategory : Category.ofJson? (.text (some word)) = some d.category := hword.ofName?
  simp only [ofJson?, asRecord_json, required, Value.asText, asWord_natural hsized.1,
    asWord_natural hsized.2, hcategory, defaulted_arguments?, Option.bind_some, Option.bind_eq_bind,
    Option.pure_def]

theorem readAll_of_read {ds : List Diagnostic} {source : String} {word : Diagnostic → String}
    (hsized : ∀ d ∈ ds, d.Sized) (hword : ∀ d ∈ ds, d.CalledBy (word d))
    (h : Json.read source = some (.array (ds.map fun d => d.json (word d)))) :
    readAll source = some ds := by
  rw [readAll, h, Option.bind_some]
  exact mapM_written fun d hd => ofJson?_json (hsized d hd) (hword d hd)

/-- Diagnostics with numbers of 32 bits are read back from the JSON text that is printed for them.
The text spells their objects, in which arguments are left out when there are none; and from any
text that spells these objects the diagnostics are read, also if what is off is called disabled. -/
theorem readAll_printAll (ds : List Diagnostic) (hsized : ∀ d ∈ ds, d.Sized) :
    readAll (printAll ds) = some ds ∧
    Json.read (printAll ds) = some (.array (ds.map fun d => d.json d.category.name)) ∧
    ∀ (source : String) (word : Diagnostic → String), (∀ d ∈ ds, d.CalledBy (word d)) →
      Json.read source = some (.array (ds.map fun d => d.json (word d))) →
        readAll source = some ds :=
  ⟨readAll_of_read hsized (fun _ _ => .inl rfl) (read_printAll ds), read_printAll ds,
    fun _ _ hword => readAll_of_read hsized hword⟩

/-- Findings with characters of all kinds, with the greatest numbers, and with and without
arguments. -/
def sampled : List Diagnostic := [
  ⟨"\"\\/\n\r\t\x08\x0c.js", 4294967295, 4294967295, "", .off, "\x00\x1f\x7fé😀", []⟩,
  ⟨"", 0, 0, "K", .warning, "\\u0001", ["", "\"", "\x7b0\x7d"]⟩]

theorem readAll_printAll_sampled :
    (∀ d ∈ sampled, d.Sized) ∧ readAll (printAll sampled) = some sampled := by
  have hsized : ∀ d ∈ sampled, d.Sized := by simp [sampled, Sized]
  exact ⟨hsized, (readAll_printAll sampled hsized).1⟩

/-- What is off may be called disabled, in any layout. -/
example : readAll "[\x7b \"category\" : \"disabled\",\"start\":7,\"length\":1,\"file\":\"a\",
    \"args\":[],\"key\":\"\\u004b\",\"message_text\":\"m\"\x7d]" =
    some [⟨"a", 7, 1, "K", .off, "m", []⟩] := by decide +kernel

end RefCheck.Diagnostic
