import RefCheck.Proofs.Walk.Mentions

/-!
# Names without a text, and names of functions

In a tree that the parser builds only functions can have a name without a text, and a function in
the place of a value binds its own name. So no check stops at a name of a parsed script for the lack
of a text.
-/

namespace RefCheck

open RefCheck.Script

/-- Only a function may be without a name, and the name of one that is not declared is bound. -/
structure Mention.Regular (m : Mention) : Prop where
  unnamed : m.name = "" → m.context.above = .function
  expression : m.context.above = .function → m.context.isDeclared = false →
    m.name = "" ∨ m.name ∈ m.context.bound

/-- A name with a text that is not that of a function. -/
theorem Mention.regular_of_name {m : Mention} (hname : m.name ≠ "")
    (habove : m.context.above ≠ .function) : m.Regular where
  unnamed h := absurd h hname
  expression h := absurd h habove

namespace Script.Tree

/-- All names in a tree are regular wherever its root is, if it is a name. -/
def Regular (t : Tree) : Prop :=
  ∀ c : Context, (t.kind = .name → Mention.Regular ⟨t.text, t.span, c⟩) →
    ∀ m ∈ t.mentions c, m.Regular

theorem mem_forestMentions {first rest : Context} {trees : List Tree} {m : Mention}
    (h : m ∈ forestMentions first rest trees) :
    ∃ t ∈ trees, m ∈ t.mentions first ∨ m ∈ t.mentions rest := by
  induction trees generalizing first with
  | nil => cases h
  | cons t ts ih =>
    rw [forestMentions] at h
    rcases List.mem_append.mp h with h | h
    · exact ⟨t, List.mem_cons_self, .inl h⟩
    · obtain ⟨u, hu, hm⟩ := ih h
      exact ⟨u, List.mem_cons_of_mem _ hu, .inr (hm.elim id id)⟩

/-- A tree is regular if the names in it are that are not its root. -/
theorem regular_of_below {t : Tree}
    (h : ∀ c : Context, ∀ m ∈ forestMentions (c.named t) (c.inside t).next t.children, m.Regular) :
    t.Regular := by
  intro c hself m hm
  obtain ⟨kind, text, span, children⟩ := t
  rw [mentions] at hm
  rcases List.mem_append.mp hm with hm | hm
  · exact h c m hm
  · split at hm
    · next hkind =>
      rw [List.mem_singleton.mp hm]
      exact hself hkind
    · cases hm

theorem above_of_plain {t : Tree} (hkind : t.kind ≠ .function) (c : Context) :
    (c.named t).above = t.kind ∧ (c.inside t).next.above = t.kind := by
  constructor
  · simp [Context.named, Context.inside, Context.below, hkind]
  · simp [Context.inside, Context.below, Context.next, hkind]

/-- Anything but a function is regular if what is below it is, and has a text if it is a name. -/
theorem regular_of_plain {t : Tree} (hkind : t.kind ≠ .function)
    (h : ∀ u ∈ t.children, (u.kind = .name → u.text ≠ "") ∧ u.Regular) : t.Regular := by
  apply regular_of_below
  intro c m hm
  obtain ⟨u, hu, hm⟩ := mem_forestMentions hm
  obtain ⟨hnamed, hinside⟩ := above_of_plain hkind c
  obtain ⟨htext, hregular⟩ := h u hu
  rcases hm with hm | hm
  · apply hregular _ _ m hm
    intro hname
    exact Mention.regular_of_name (htext hname) (hnamed ▸ hkind)
  · apply hregular _ _ m hm
    intro hname
    exact Mention.regular_of_name (htext hname) (hinside ▸ hkind)

/-- A function is regular if its parts are. -/
theorem regular_function {text : String} {span : Text.Span} {name params body : Tree}
    (hname : name.Regular) (hparams : params.Regular) (hbody : body.Regular)
    (hkinds : params.kind ≠ .name ∧ body.kind ≠ .name) :
    (node .function text span [name, params, body]).Regular := by
  apply regular_of_below
  intro c m hm
  simp only [children, forestMentions, List.append_nil] at hm
  rcases List.mem_append.mp hm with hm | hm
  · apply hname _ _ m hm
    intro _
    constructor
    · intro _
      rw [Context.named, Context.inside, Context.below]
      split <;> rfl
    · intro _ hplace
      right
      rw [Context.named, Context.inside] at hplace ⊢
      cases habove : c.above.holdsStatements with
      | true => simp [kind, Context.below, habove] at hplace
      | false => simp [kind, habove, boundBy, children]
  · rcases List.mem_append.mp hm with hm | hm
    · exact hparams _ (fun h => absurd h hkinds.1) m hm
    · exact hbody _ (fun h => absurd h hkinds.2) m hm

end Script.Tree

namespace Script

/-- What is no name needs no text, and what is no function is regular if what is below it is. -/
theorem regular_of_kind {role : Role} {t : Tree} (hname : t.kind ≠ .name)
    (hfunction : t.kind ≠ .function)
    (h : ∀ u ∈ t.children, (u.kind = .name → u.text ≠ "") ∧ u.Regular) :
    (role ≠ .functionName → t.kind = .name → t.text ≠ "") ∧ t.Regular :=
  ⟨fun _ hkind => absurd hkind hname, Tree.regular_of_plain hfunction h⟩

/-- Trees that fit are regular, and names among them have a text unless they name a function. -/
theorem regular_of_fits {n : Nat} {role : Role} {t : Tree} (h : Fits n role t) :
    (role ≠ .functionName → t.kind = .name → t.text ≠ "") ∧ t.Regular := by
  induction h with
  | plainBranch _ ih | blockStatement _ ih | functionStatement _ ih | name _ ih
  | functionValue _ ih | parentheses _ ih | members _ ih | firstOperand _ ih | operand _ ih
  | expression _ ih => exact ⟨fun _ => ih.1 (by simp), ih.2⟩
  | @jump _ kind _ h =>
    cases kind <;> cases h <;> exact regular_of_kind (by simp) (by simp) (by simp)
  | @jumpTo _ kind _ _ h _ ih =>
    cases kind <;> cases h <;> exact regular_of_kind (by simp) (by simp) (by simpa using ih)
  | @literal _ kind _ _ h =>
    cases kind <;> cases h <;> exact regular_of_kind (by simp) (by simp) (by simp)
  | functionName =>
    exact ⟨fun h => absurd rfl h, Tree.regular_of_plain (by simp) (by simp)⟩
  | declared htext | plainName htext =>
    exact ⟨fun _ _ => htext, Tree.regular_of_plain (by simp) (by simp)⟩
  | initialized htext _ ih =>
    exact ⟨fun _ _ => htext, Tree.regular_of_plain (by simp) (by simpa using ih)⟩
  | function _ hparams hbody hname hparamsRegular hbodyRegular =>
    refine ⟨fun _ hkind => absurd hkind (by simp),
      Tree.regular_function hname.2 hparamsRegular.2 hbodyRegular.2 ?_⟩
    cases hparams
    cases hbody
    simp
  | _ => exact regular_of_kind (by simp) (by simp) (by simp_all)

end Script

end RefCheck
