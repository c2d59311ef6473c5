import RefCheck.Proofs.Script.Partition
import RefCheck.Proofs.Script.Yield

/-!
# Spans nest and stand in order

Each token starts behind the one before it, and the parser puts the spans of its nodes together from
those of tokens. So the trees of a row stand one after the other, and what stands below a node
stands inside its span (`Laid`). A name is the one exception: it spans its own word, and the
initializer of a declared variable, which hangs below the name, stands behind it.
-/

namespace RefCheck.Script

open RefCheck.Text

/-- Tokens stand one after the other between two offsets. -/
def Between (lo : Nat) : List Token → (hi : Nat) → Prop
  | [], hi => lo ≤ hi
  | t :: rest, hi => lo ≤ t.span.start ∧ t.span.start ≤ t.span.stop ∧ Between t.span.stop rest hi

theorem between_append {ts us : List Token} {lo hi : Nat} :
    Between lo (ts ++ us) hi ↔ ∃ mid, Between lo ts mid ∧ Between mid us hi := by
  induction ts generalizing lo with
  | nil =>
    constructor
    · intro h
      exact ⟨lo, Nat.le_refl lo, h⟩
    · rintro ⟨mid, hmid, h⟩
      cases us with
      | nil => exact Nat.le_trans hmid h
      | cons u rest => exact ⟨Nat.le_trans hmid h.1, h.2⟩
  | cons t rest ih =>
    simp only [List.cons_append, Between, ih, ← exists_and_left, and_assoc]

theorem Scans.between {source : List Char} {r : Remainder} {found : Scanned} (h : Scans r found)
    (hof : r.Of source) : Between r.offset found.tokens (byteLength source) := by
  induction h with
  | fails =>
    obtain ⟨before, rfl, hoffset⟩ := hof
    rw [byteLength_append, ← hoffset]
    exact Nat.le_add_right _ _
  | ends hscan hend =>
    obtain ⟨hstart, hspan, -⟩ := scan_forward hscan
    refine ⟨hstart, hspan, ?_⟩
    rw [scan_end hscan hend hof]
    exact Nat.le_refl _
  | goes hscan _ _ ih =>
    obtain ⟨hstart, hspan, hstop, -⟩ := scan_forward hscan
    exact ⟨hstart, hspan, hstop ▸ ih (scan_cutFrom hscan hof).2⟩

/-- Trees stand one after the other between two offsets, and what is below a node stands inside its
span. The kind is that of the node above: below `var` there are names only, and no other names have
anything below them. That stands behind the name. -/
inductive Laid : (above : NodeKind) → (lo : Nat) → List Tree → (hi : Nat) → Prop
  | nil {above : NodeKind} {lo hi : Nat} : lo ≤ hi → Laid above lo [] hi
  | node {above kind : NodeKind} {lo hi : Nat} {text : String} {span : Span}
      {children rest : List Tree} : kind ≠ .name → above ≠ .var → lo ≤ span.start →
      Laid kind span.start children span.stop → Laid above span.stop rest hi →
      Laid above lo (.node kind text span children :: rest) hi
  | name {above : NodeKind} {lo mid hi : Nat} {text : String} {span : Span}
      {children rest : List Tree} : (children ≠ [] → above = .var) → lo ≤ span.start →
      span.start ≤ span.stop → Laid .name span.stop children mid → Laid above mid rest hi →
      Laid above lo (.node .name text span children :: rest) hi

namespace Laid

variable {above kind : NodeKind} {lo mid hi : Nat} {t : Tree} {trees us vs : List Tree}

theorem le (h : Laid above lo trees hi) : lo ≤ hi := by
  induction h with
  | nil hle => exact hle
  | node _ _ hlo _ _ hspan hrest => exact Nat.le_trans hlo (Nat.le_trans hspan hrest)
  | name _ hlo hspan _ _ hbelow hrest => omega

theorem from_lower {lower : Nat} (h : Laid above lo trees hi) (hlower : lower ≤ lo) :
    Laid above lower trees hi := by
  cases h with
  | nil hle => exact .nil (Nat.le_trans hlower hle)
  | node hkind habove hlo hbelow hrest =>
    exact .node hkind habove (Nat.le_trans hlower hlo) hbelow hrest
  | name habove hlo hspan hbelow hrest =>
    exact .name habove (Nat.le_trans hlower hlo) hspan hbelow hrest

theorem append (hus : Laid above lo us mid) (hvs : Laid above mid vs hi) :
    Laid above lo (us ++ vs) hi := by
  induction hus with
  | nil hle => exact hvs.from_lower hle
  | node hkind habove hlo hbelow _ _ ih => exact .node hkind habove hlo hbelow (ih hvs)
  | name habove hlo hspan hbelow _ _ ih => exact .name habove hlo hspan hbelow (ih hvs)

theorem mono {lower higher : Nat} (h : Laid above lo trees hi) (hlower : lower ≤ lo)
    (hhigher : hi ≤ higher) : Laid above lower trees higher := by
  simpa using (h.from_lower hlower).append (.nil hhigher)

/-- What stands below a name. -/
theorem of_name (h : Laid above lo trees hi) (ht : t ∈ trees) (hkind : t.kind = .name) :
    (t.children ≠ [] → above = .var) ∧ ∃ mid, Laid .name t.span.stop t.children mid := by
  induction h with
  | nil => cases ht
  | node hnot _ _ _ _ _ ih =>
    rcases List.mem_cons.mp ht with rfl | ht
    · exact absurd hkind hnot
    · exact ih ht
  | name habove _ _ hbelow _ _ ih =>
    rcases List.mem_cons.mp ht with rfl | ht
    · exact ⟨habove, _, hbelow⟩
    · exact ih ht

theorem of_append (h : Laid above lo (us ++ vs) hi) :
    ∃ mid, Laid above lo us mid ∧ Laid above mid vs hi := by
  induction us generalizing lo with
  | nil => exact ⟨lo, .nil (Nat.le_refl _), h⟩
  | cons t rest ih =>
    cases h with
    | node hkind habove hlo hbelow hrest =>
      obtain ⟨mid, hus, hvs⟩ := ih hrest
      exact ⟨mid, .node hkind habove hlo hbelow hus, hvs⟩
    | name habove hlo hspan hbelow hrest =>
      obtain ⟨mid, hus, hvs⟩ := ih hrest
      exact ⟨mid, .name habove hlo hspan hbelow hus, hvs⟩

theorem word {text : String} {span : Span} (hlo : lo ≤ span.start)
    (hspan : span.start ≤ span.stop) (hhi : span.stop ≤ hi) :
    Laid above lo [.node .name text span []] hi :=
  .name (fun h => absurd rfl h) hlo hspan (.nil (Nat.le_refl _)) (.nil hhi)

/-- A tree that is not below `var` fills its span. -/
theorem own (h : Laid above lo [t] hi) (habove : above ≠ .var) :
    lo ≤ t.span.start ∧ t.span.start ≤ t.span.stop ∧ t.span.stop ≤ hi ∧
      Laid above t.span.start [t] t.span.stop := by
  have hrefl := Nat.le_refl
  cases h with
  | node hkind _ hlo hbelow hrest =>
    exact ⟨hlo, hbelow.le, hrest.le, .node hkind habove (hrefl _) hbelow (.nil (hrefl _))⟩
  | @name _ _ _ _ _ _ children _ hvar hlo hspan hbelow hrest =>
    have hnone : children = [] := by
      by_contra hsome
      exact habove (hvar hsome)
    subst hnone
    exact ⟨hlo, hspan, Nat.le_trans hbelow.le hrest.le, .word (hrefl _) hspan (hrefl _)⟩

/-- A row starts where its first tree starts. -/
theorem to_first (h : Laid above lo (t :: trees) hi) :
    lo ≤ t.span.start ∧ t.span.stop ≤ hi ∧ Laid above t.span.start (t :: trees) hi := by
  have hrefl := Nat.le_refl t.span.start
  cases h with
  | node hkind habove hlo hbelow hrest =>
    exact ⟨hlo, hrest.le, .node hkind habove hrefl hbelow hrest⟩
  | name hvar hlo hspan hbelow hrest =>
    exact ⟨hlo, Nat.le_trans hbelow.le hrest.le, .name hvar hrefl hspan hbelow hrest⟩

/-- A row of trees that are not below `var` ends where the last one ends. -/
theorem to_last (h : Laid above lo trees hi) (habove : above ≠ .var)
    (ht : trees.getLast? = some t) :
    lo ≤ t.span.start ∧ t.span.stop ≤ hi ∧ Laid above lo trees t.span.stop := by
  obtain ⟨front, rfl⟩ := List.getLast?_eq_some_iff.mp ht
  obtain ⟨mid, hfront, hlast⟩ := h.of_append
  obtain ⟨hstart, -, hstop, hown⟩ := hlast.own habove
  exact ⟨Nat.le_trans hfront.le hstart, hstop, hfront.append (hown.from_lower hstart)⟩

/-- A row of declared variables ends where the last one ends, be it with its initializer. -/
theorem to_declared {keyword : Span} (h : Laid .var keyword.stop trees hi) :
    ∃ last, (trees.getLast?.map declaratorEnd).getD keyword = last ∧
      (last = keyword ∨ keyword.stop ≤ last.start) ∧ last.stop ≤ hi ∧
        Laid .var keyword.stop trees last.stop := by
  have hrefl := Nat.le_refl
  cases hlast : trees.getLast? with
  | none =>
    rw [List.getLast?_eq_none_iff.mp hlast] at h ⊢
    exact ⟨keyword, rfl, .inl rfl, h.le, .nil (hrefl _)⟩
  | some last =>
    obtain ⟨front, rfl⟩ := List.getLast?_eq_some_iff.mp hlast
    obtain ⟨mid, hfront, hown⟩ := h.of_append
    have hmid := hfront.le
    refine ⟨_, rfl, ?_⟩
    rw [Option.map_some, Option.getD_some, declaratorEnd]
    cases hown with
    | node _ hnot => exact absurd rfl hnot
    | @name _ _ _ _ _ _ children _ hvar hlo hspan hbelow hrest =>
      rw [Tree.children_node]
      cases hvalue : children.getLast? with
      | none =>
        rw [List.getLast?_eq_none_iff.mp hvalue] at hbelow ⊢
        exact ⟨.inr (Nat.le_trans hmid hlo), Nat.le_trans hbelow.le hrest.le,
          hfront.append (.word hlo hspan (hrefl _))⟩
      | some value =>
        obtain ⟨hstart, hstop, htight⟩ := hbelow.to_last nofun hvalue
        refine ⟨.inr ?_, Nat.le_trans hstop hrest.le,
          hfront.append (.name hvar hlo hspan htight (.nil (hrefl _)))⟩
        exact Nat.le_trans hmid (Nat.le_trans hlo (Nat.le_trans hspan hstart))

section

variable {text : String} {span first last : Span} {left right : Tree} {a b : Nat}
  (hkind : kind ≠ .name) (habove : above ≠ .var)
include hkind habove

theorem single (hlo : lo ≤ span.start) (hbelow : Laid kind span.start trees span.stop)
    (hhi : span.stop ≤ hi) : Laid above lo [.node kind text span trees] hi :=
  .node hkind habove hlo hbelow (.nil hhi)

/-- A node from a first span to a last one, with what is below it between these. -/
theorem around (hbelow : Laid kind a trees b) (hfirst : lo ≤ first.start ∧ first.start ≤ a)
    (hboth : first.start ≤ last.start ∧ first.stop ≤ last.stop)
    (hlast : b ≤ last.stop ∧ last.stop ≤ hi) :
    Laid above lo [.node kind text (first.to last) trees] hi := by
  have hspan : first.to last = ⟨first.start, last.stop⟩ := by
    rw [Span.to, Nat.min_eq_left hboth.1, Nat.max_eq_right hboth.2]
  rw [hspan]
  exact single hkind habove hfirst.1 (hbelow.mono hfirst.2 hlast.1) hlast.2

/-- A node from a word to its last tree. -/
theorem led (hvar : kind ≠ .var) (hlo : lo ≤ first.start) (hfirst : first.start ≤ first.stop)
    (hbelow : Laid kind first.stop trees hi) (hright : trees.getLast? = some right) :
    Laid above lo [.node kind text (first.to right.span) trees] hi := by
  obtain ⟨hstart, hhi, htight⟩ := hbelow.to_last hvar hright
  exact around hkind habove htight ⟨hlo, hfirst⟩ ⟨Nat.le_trans hfirst hstart, htight.le⟩
    ⟨Nat.le_refl _, hhi⟩

/-- A node from its first tree to its last one. -/
theorem spanning (hvar : kind ≠ .var) (hbelow : Laid kind lo (left :: trees) hi)
    (hright : (left :: trees).getLast? = some right) :
    Laid above lo [.node kind text (left.span.to right.span) (left :: trees)] hi := by
  obtain ⟨hlo, -, hfrom⟩ := hbelow.to_first
  obtain ⟨hstart, hhi, htight⟩ := hfrom.to_last hvar hright
  exact around hkind habove htight ⟨hlo, Nat.le_refl _⟩ ⟨hstart, htight.to_first.2.1⟩
    ⟨Nat.le_refl _, hhi⟩

/-- A node from its first tree to a word. -/
theorem closed (hbelow : Laid kind lo (left :: trees) mid) (hmid : mid ≤ last.start)
    (hlast : last.start ≤ last.stop) (hhi : last.stop ≤ hi) :
    Laid above lo [.node kind text (left.span.to last) (left :: trees)] hi := by
  obtain ⟨hlo, hstop, hfrom⟩ := hbelow.to_first
  have hend := Nat.le_trans hmid hlast
  exact around hkind habove hfrom ⟨hlo, Nat.le_refl _⟩
    ⟨Nat.le_trans hfrom.le hmid, Nat.le_trans hstop hend⟩ ⟨hend, hhi⟩

end

end Laid

/-- Trees below a node of the kind stand wherever the tokens do that they are read from. -/
def Follows (above : NodeKind) (ts : List Token) (trees : List Tree) : Prop :=
  ∀ ⦃lo hi : Nat⦄, Between lo ts hi → Laid above lo trees hi

namespace Follows

variable {above kind : NodeKind} {ts us fs : List Token} {trees others : List Tree} {t : Token}

theorem silent (ts : List Token) : Follows above ts [] := by
  induction ts with
  | nil => exact fun _ _ hrow => .nil hrow
  | cons t rest ih =>
    rintro lo hi ⟨hlo, hspan, hrest⟩
    exact .nil (Nat.le_trans hlo (Nat.le_trans hspan (ih hrest).le))

theorem append (hts : Follows above ts trees) (hus : Follows above us others) :
    Follows above (ts ++ us) (trees ++ others) := by
  intro lo hi hrow
  obtain ⟨mid, hfront, hback⟩ := between_append.mp hrow
  exact (hts hfront).append (hus hback)

/-- A token in front may leave no tree. -/
theorem after (t : Token) (h : Follows above ts trees) : Follows above (t :: ts) trees :=
  (silent [t]).append h

/-- Nor need tokens behind. -/
theorem before (h : Follows above ts trees) (us : List Token) :
    Follows above (ts ++ us) trees := by
  simpa only [List.append_nil] using h.append (silent us)

theorem word (t : Token) : Follows above [t] [.node .name t.text t.span []] := by
  rintro lo hi ⟨hlo, hspan, hhi⟩
  exact .word hlo hspan hhi

/-- An initializer stands behind the name. -/
theorem initialized {value : Tree} {equals : Token} (h : Follows .name ts [value]) :
    Follows .var (t :: equals :: ts) [.node .name t.text t.span [value]] := by
  rintro lo hi ⟨hlo, hspan, hrow⟩
  exact .name (fun _ => rfl) hlo hspan (h.after equals hrow) (.nil (Nat.le_refl hi))

section

variable {text : String} {span ending : Span} {first last : Tree} {keyword opening closing : Token}

theorem leaf (habove : above ≠ .var) (hkind : kind ≠ .name) :
    Follows above [t] [.node kind text t.span []] := by
  rintro lo hi ⟨hlo, hspan, hhi⟩
  exact .single hkind habove hlo (.nil hspan) hhi

/-- A node with the span of the one tree below it. -/
theorem wrapped (h : Follows kind ts [first]) (habove : above ≠ .var) (hkind : kind ≠ .name)
    (hvar : kind ≠ .var) : Follows above ts [.node kind text first.span [first]] := by
  intro lo hi hrow
  obtain ⟨hlo, -, hhi, hown⟩ := (h hrow).own hvar
  exact .single hkind habove hlo hown hhi

theorem bracketed (h : Follows kind ts trees) (habove : above ≠ .var) (hkind : kind ≠ .name) :
    Follows above (opening :: (ts ++ [closing]))
      [.node kind text (opening.span.to closing.span) trees] := by
  rintro lo hi ⟨hlo, hopen, hrow⟩
  obtain ⟨mid, hts, hmid, hclose, hhi⟩ := between_append.mp hrow
  have hbelow := h hts
  have hle := hbelow.le
  exact .around hkind habove hbelow ⟨hlo, hopen⟩ (by omega) ⟨by omega, hhi⟩

theorem led (h : Follows kind ts trees) (habove : above ≠ .var) (hkind : kind ≠ .name)
    (hvar : kind ≠ .var) (hlast : trees.getLast? = some last) :
    Follows above (keyword :: ts) [.node kind text (keyword.span.to last.span) trees] := by
  rintro lo hi ⟨hlo, hspan, hrow⟩
  exact .led hkind habove hvar hlo hspan (h hrow) hlast

theorem spanning (h : Follows kind ts (first :: trees)) (habove : above ≠ .var)
    (hkind : kind ≠ .name) (hvar : kind ≠ .var) (hlast : (first :: trees).getLast? = some last) :
    Follows above ts [.node kind text (first.span.to last.span) (first :: trees)] :=
  fun _ _ hrow => .spanning hkind habove hvar (h hrow) hlast

theorem closed (h : Follows kind ts (first :: trees)) (habove : above ≠ .var)
    (hkind : kind ≠ .name) : Follows above (ts ++ [closing])
      [.node kind text (first.span.to closing.span) (first :: trees)] := by
  intro lo hi hrow
  obtain ⟨mid, hts, hmid, hclose, hhi⟩ := between_append.mp hrow
  exact .closed hkind habove (h hts) hmid hclose hhi

theorem declaring (h : Follows .var ts trees) (habove : above ≠ .var) :
    Follows above (keyword :: ts) [.node .var text
      (keyword.span.to ((trees.getLast?.map declaratorEnd).getD keyword.span)) trees] := by
  rintro lo hi ⟨hlo, hspan, hrow⟩
  obtain ⟨last, hlast, hfirst, hhi, hbelow⟩ := (h hrow).to_declared
  have hle := hbelow.le
  rw [hlast]
  refine .around nofun habove hbelow ⟨hlo, hspan⟩ ?_ ⟨Nat.le_refl _, hhi⟩
  rcases hfirst with rfl | hfirst
  · exact ⟨Nat.le_refl _, hle⟩
  · exact ⟨Nat.le_trans hspan hfirst, hle⟩

/-- The span of a statement may be extended over a semicolon. -/
theorem finished (h : Follows above ts [.node kind text span trees])
    (hfinish : Finish span fs ending) (habove : above ≠ .var) (hkind : kind ≠ .name) :
    Follows above (ts ++ fs) [.node kind text ending trees] := by
  intro lo hi hrow
  obtain ⟨mid, hts, hfs⟩ := between_append.mp hrow
  cases h hts with
  | name => exact absurd rfl hkind
  | node _ _ hlo hbelow hrest =>
    have hspan := hbelow.le
    have hmid := hrest.le
    cases hfinish with
    | without => exact .single hkind habove hlo hbelow (Nat.le_trans hmid hfs)
    | semicolon =>
      obtain ⟨hstart, htoken, hhi⟩ := hfs
      exact .around hkind habove hbelow ⟨hlo, Nat.le_refl _⟩ (by omega) ⟨by omega, hhi⟩

theorem function {params body : Tree} (hparams : Follows .function ts [params])
    (hbody : Follows .function us [body]) (habove : above ≠ .var) :
    Follows above (keyword :: t :: (ts ++ us)) [.node .function text (keyword.span.to body.span)
      [.node .name t.text t.span [], params, body]] :=
  ((word t).append (hparams.append hbody)).led habove nofun nofun rfl

/-- The empty name of a function stands right behind the keyword. -/
theorem unnamed {params body : Tree} (hparams : Follows .function ts [params])
    (hbody : Follows .function us [body]) (habove : above ≠ .var) :
    Follows above (keyword :: (ts ++ us)) [.node .function text (keyword.span.to body.span)
      [.node .name "" ⟨keyword.span.stop, keyword.span.stop⟩ [], params, body]] := by
  rintro lo hi ⟨hlo, hspan, hrow⟩
  have hrefl := Nat.le_refl keyword.span.stop
  have hname : Laid .function keyword.span.stop
      [.node .name "" ⟨keyword.span.stop, keyword.span.stop⟩ []] keyword.span.stop :=
    .word hrefl hrefl hrefl
  exact .led nofun habove nofun hlo hspan (hname.append (hparams.append hbody hrow)) rfl

theorem ifThen {condition : Tree} (hcondition : Follows .ifElse ts [condition])
    (hfirst : Follows .ifElse us [first]) (habove : above ≠ .var) :
    Follows above (keyword :: opening :: (ts ++ closing :: us))
      [.node .ifElse text (keyword.span.to first.span) [condition, first]] :=
  ((hcondition.append (hfirst.after closing)).after opening).led habove nofun nofun rfl

theorem ifElse {condition : Tree} {otherwise : Token} (hcondition : Follows .ifElse ts [condition])
    (hfirst : Follows .ifElse us [first]) (hlast : Follows .ifElse fs [last])
    (habove : above ≠ .var) :
    Follows above (keyword :: opening :: (ts ++ closing :: (us ++ otherwise :: fs)))
      [.node .ifElse text (keyword.span.to last.span) [condition, first, last]] := by
  have hbranches := (hfirst.append (hlast.after otherwise)).after closing
  exact ((hcondition.append hbranches).after opening).led habove nofun nofun rfl

theorem label {colon : Token} (hbody : Follows .label ts [last]) (habove : above ≠ .var) :
    Follows above (t :: colon :: ts)
      [.node .label text (t.span.to last.span) [.node .name t.text t.span [], last]] :=
  ((word t).append (hbody.after colon)).spanning habove nofun nofun rfl

theorem getProp {dot : Token} (hobject : Follows .getProp ts [first]) (habove : above ≠ .var) :
    Follows above (ts ++ [dot, t]) [.node .getProp text (first.span.to t.span)
      [first, .node .propertyName t.text t.span []]] := by
  have hproperty : Follows .getProp [t] [.node .propertyName t.text t.span []] :=
    .leaf nofun nofun
  exact (hobject.append (hproperty.after dot)).spanning habove nofun nofun rfl

theorem call (hcallee : Follows .call ts [first]) (harguments : Follows .call us trees)
    (habove : above ≠ .var) : Follows above (ts ++ opening :: (us ++ [closing]))
      [.node .call text (first.span.to closing.span) (first :: trees)] := by
  rw [← List.cons_append, ← List.append_assoc]
  exact (hcallee.append (harguments.after opening)).closed habove nofun

theorem joined (hfirst : Follows kind ts [first]) (hlast : Follows kind us [last])
    (habove : above ≠ .var) (hkind : kind ≠ .name) (hvar : kind ≠ .var) :
    Follows above (ts ++ t :: us) [.node kind text (first.span.to last.span) [first, last]] :=
  (hfirst.append (hlast.after t)).spanning habove hkind hvar rfl

end

end Follows

/-- The parts that stand below `var`. -/
def Part.declares : Part → Bool
  | declarator => true
  | list item => item.declares
  | _ => false

/-- Trees stand where the tokens stand that they are read from. There is a case for each rule of the
grammar: what is read from a piece of the row stands inside the piece, and a node is put around it
in one of a few ways. -/
theorem Derives.follows {part : Part} {ts : List Token} {trees : List Tree} {above : NodeKind}
    (h : Derives part ts trees) (hpart : decide (above = .var) = part.declares) :
    Follows above ts trees := by
  induction h generalizing above with
  | nothing => exact .silent []
  | more _ _ ih ihrest => exact (ih hpart).append (ihrest hpart)
  | last _ ih => exact ih hpart
  | comma _ _ _ ih ihrest => exact (ih hpart).append ((ihrest hpart).after _)
  | block _ _ _ ih => exact .bracketed (ih rfl) (of_decide_eq_false hpart) nofun
  | plainBranch _ ih | blockStatement _ ih | functionStatement _ ih | functionValue _ ih
  | members _ ih | firstOperand _ ih | expression _ ih => exact ih hpart
  | wrappedBranch _ _ ih => exact .wrapped (ih rfl) (of_decide_eq_false hpart) nofun nofun
  | name | declared => exact .word _
  | noParameters => exact .bracketed (.silent []) (of_decide_eq_false hpart) nofun
  | parameters _ _ _ ih => exact .bracketed (ih rfl) (of_decide_eq_false hpart) nofun
  | function _ _ _ _ ihparams ihbody =>
    exact .function (ihparams rfl) (ihbody rfl) (of_decide_eq_false hpart)
  | unnamed _ _ _ ihparams ihbody =>
    exact .unnamed (ihparams rfl) (ihbody rfl) (of_decide_eq_false hpart)
  | initialized _ _ _ ih =>
    obtain rfl := of_decide_eq_true hpart
    exact .initialized (ih rfl)
  | var _ _ hfinish ih =>
    have habove := of_decide_eq_false hpart
    exact (Follows.declaring (ih rfl) habove).finished hfinish habove nofun
  | exprResult _ hfinish ih =>
    have habove := of_decide_eq_false hpart
    have hvalue : Follows .exprResult _ _ := ih rfl
    exact (hvalue.wrapped habove nofun nofun).finished hfinish habove nofun
  | @retNothing _ _ keyword _ hfinish =>
    have habove := of_decide_eq_false hpart
    have hleaf : Follows above [keyword] [.node .ret "" keyword.span []] := .leaf habove nofun
    exact hleaf.finished hfinish habove nofun
  | ret _ _ hfinish ih =>
    have habove := of_decide_eq_false hpart
    have hvalue : Follows .ret _ _ := ih rfl
    exact (hvalue.led habove nofun nofun rfl).finished hfinish habove nofun
  | ifThen _ _ _ _ _ ihcondition ihfirst =>
    exact .ifThen (ihcondition rfl) (ihfirst rfl) (of_decide_eq_false hpart)
  | ifElse _ _ _ _ _ _ _ ihcondition ihfirst ihsecond =>
    exact .ifElse (ihcondition rfl) (ihfirst rfl) (ihsecond rfl) (of_decide_eq_false hpart)
  | label _ _ _ ih => exact .label (ih rfl) (of_decide_eq_false hpart)
  | jump hjump hfinish =>
    have habove := of_decide_eq_false hpart
    obtain ⟨hkind, -⟩ := TokenKind.jumpKind_ne hjump
    exact (Follows.leaf habove hkind).finished hfinish habove hkind
  | jumpTo hjump _ hfinish =>
    have habove := of_decide_eq_false hpart
    obtain ⟨hkind, -, hvar⟩ := TokenKind.jumpKind_ne hjump
    exact ((Follows.word _).led habove hkind hvar rfl).finished hfinish habove hkind
  | empty => exact .leaf (of_decide_eq_false hpart) nofun
  | @leaf kind _ hleaf =>
    by_cases hname : kind = .name
    · subst hname
      exact .word _
    · exact .leaf (of_decide_eq_false hpart) hname
  | parentheses _ _ _ ih => exact ((ih hpart).before _).after _
  | getProp _ _ _ ih => exact .getProp (ih rfl) (of_decide_eq_false hpart)
  | callNothing _ _ _ ih => exact .call (ih rfl) (.silent []) (of_decide_eq_false hpart)
  | call _ _ _ _ ih iharguments =>
    exact .call (ih rfl) (iharguments rfl) (of_decide_eq_false hpart)
  | unary _ _ ih => exact .led (ih rfl) (of_decide_eq_false hpart) nofun nofun rfl
  | binary _ _ _ _ ih ihright | assign _ _ _ _ ih ihright =>
    exact .joined (ih rfl) (ihright rfl) (of_decide_eq_false hpart) nofun nofun

theorem mem_forestNodes {t u : Tree} {trees : List Tree} (ht : t ∈ trees) (hu : u ∈ t.nodes) :
    u ∈ forestNodes trees := by
  induction trees with
  | nil => cases ht
  | cons first rest ih =>
    rw [forestNodes, List.mem_append]
    rcases List.mem_cons.mp ht with rfl | ht
    · exact .inl hu
    · exact .inr (ih ht)

namespace Laid

variable {above : NodeKind} {lo hi : Nat} {u : Tree} {trees : List Tree}

theorem bounds (h : Laid above lo trees hi) (hu : u ∈ forestNodes trees) :
    lo ≤ u.span.start ∧ u.span.start ≤ u.span.stop ∧ u.span.stop ≤ hi := by
  induction h with
  | nil => cases hu
  | node _ _ hlo hbelow hrest ihbelow ihrest =>
    have hspan := hbelow.le
    have hhi := hrest.le
    rw [forestNodes, Tree.nodes, List.cons_append, List.mem_cons, List.mem_append] at hu
    rcases hu with rfl | hu | hu
    · exact ⟨hlo, hspan, hhi⟩
    · have := ihbelow hu
      omega
    · have := ihrest hu
      omega
  | name _ hlo hspan hbelow hrest ihbelow ihrest =>
    have hmid := hbelow.le
    have hhi := hrest.le
    rw [forestNodes, Tree.nodes, List.cons_append, List.mem_cons, List.mem_append] at hu
    rcases hu with rfl | hu | hu
    · exact ⟨hlo, hspan, Nat.le_trans hmid hhi⟩
    · have := ihbelow hu
      omega
    · have := ihrest hu
      omega

/-- What is below a node is a row itself, between the ends of the node unless it is a name. -/
theorem row_below (h : Laid above lo trees hi) (hu : u ∈ forestNodes trees) :
    ∃ a b, Laid u.kind a u.children b ∧
      (u.kind ≠ .name → a = u.span.start ∧ b = u.span.stop) := by
  induction h with
  | nil => cases hu
  | node _ _ _ hbelow _ ihbelow ihrest =>
    rw [forestNodes, Tree.nodes, List.cons_append, List.mem_cons, List.mem_append] at hu
    rcases hu with rfl | hu | hu
    · exact ⟨_, _, hbelow, fun _ => ⟨rfl, rfl⟩⟩
    · exact ihbelow hu
    · exact ihrest hu
  | name _ _ _ hbelow _ ihbelow ihrest =>
    rw [forestNodes, Tree.nodes, List.cons_append, List.mem_cons, List.mem_append] at hu
    rcases hu with rfl | hu | hu
    · exact ⟨_, _, hbelow, fun hkind => absurd rfl hkind⟩
    · exact ihbelow hu
    · exact ihrest hu

theorem pairwise (h : Laid above lo trees hi) :
    trees.Pairwise fun left right =>
      ∀ u ∈ left.nodes, ∀ v ∈ right.nodes, u.span.stop ≤ v.span.start := by
  induction h with
  | nil => exact .nil
  | node _ _ _ hbelow hrest _ ih =>
    refine List.pairwise_cons.mpr ⟨fun right hright u hu v hv => ?_, ih⟩
    have hv := hrest.bounds (mem_forestNodes hright hv)
    rw [Tree.nodes, List.mem_cons] at hu
    rcases hu with rfl | hu
    · exact hv.1
    · exact Nat.le_trans (hbelow.bounds hu).2.2 hv.1
  | name _ _ _ hbelow hrest _ ih =>
    refine List.pairwise_cons.mpr ⟨fun right hright u hu v hv => ?_, ih⟩
    have hv := hrest.bounds (mem_forestNodes hright hv)
    rw [Tree.nodes, List.mem_cons] at hu
    rcases hu with rfl | hu
    · exact Nat.le_trans hbelow.le hv.1
    · exact Nat.le_trans (hbelow.bounds hu).2.2 hv.1

end Laid

/-- One span lies inside another. -/
def Covers (outer inner : Span) : Prop := outer.start ≤ inner.start ∧ inner.stop ≤ outer.stop

/-- How the spans of a tree lie in a source of so many bytes. Every node but a name covers all nodes
below it. What is below a name is the initializer of a declared variable: it stands behind the name
and inside the `var` above the name. Of two nodes with the same node above, all of the first one
stands in front of all of the second. -/
structure Tree.Nests (size : Nat) (tree : Tree) : Prop where
  inside : ∀ t ∈ tree.nodes, t.span.start ≤ t.span.stop ∧ t.span.stop ≤ size
  covers : ∀ t ∈ tree.nodes, t.kind ≠ .name → ∀ u ∈ forestNodes t.children, Covers t.span u.span
  initializers : ∀ t ∈ tree.nodes, ∀ name ∈ t.children, name.kind = .name →
    ∀ u ∈ forestNodes name.children,
      t.kind = .var ∧ name.span.stop ≤ u.span.start ∧ Covers t.span u.span
  siblings : ∀ t ∈ tree.nodes, t.children.Pairwise fun left right =>
    ∀ u ∈ left.nodes, ∀ v ∈ right.nodes, u.span.stop ≤ v.span.start

theorem Laid.nests {above : NodeKind} {lo hi : Nat} {tree : Tree} (h : Laid above lo [tree] hi) :
    tree.Nests hi := by
  have hnodes : ∀ t ∈ tree.nodes, t ∈ forestNodes [tree] := fun t =>
    mem_forestNodes List.mem_cons_self
  have hcovers : ∀ t ∈ tree.nodes, t.kind ≠ .name →
      ∀ u ∈ forestNodes t.children, Covers t.span u.span := by
    intro t ht hkind u hu
    obtain ⟨a, b, hbelow, hspan⟩ := h.row_below (hnodes t ht)
    obtain ⟨rfl, rfl⟩ := hspan hkind
    obtain ⟨hstart, -, hstop⟩ := hbelow.bounds hu
    exact ⟨hstart, hstop⟩
  refine ⟨fun t ht => (h.bounds (hnodes t ht)).2, hcovers, ?_, ?_⟩
  · intro t ht name hname hkind u hu
    obtain ⟨a, b, hbelow, -⟩ := h.row_below (hnodes t ht)
    obtain ⟨hvar, mid, hvalue⟩ := hbelow.of_name hname hkind
    have hvar : t.kind = .var := hvar fun hnone => by
      rw [hnone] at hu
      cases hu
    have hinner : u ∈ forestNodes t.children := by
      refine mem_forestNodes hname ?_
      cases name
      exact List.mem_cons_of_mem _ hu
    exact ⟨hvar, (hvalue.bounds hu).1, hcovers t ht (hvar ▸ nofun) u hinner⟩
  · intro t ht
    obtain ⟨a, b, hbelow, -⟩ := h.row_below (hnodes t ht)
    exact hbelow.pairwise

/-- The spans of every script that can be read nest and stand in order. -/
theorem nests_of_parse {source : String} {tree : Tree} (h : parse source = .ok tree) :
    tree.Nests source.utf8ByteSize := by
  obtain ⟨used, last, htokens, -, htree, hbody⟩ := placed_of_parse h
  have hscans : Scans ⟨0, source.toList⟩ (tokenize source) :=
    scans_scanUpTo _ (Nat.lt_succ_self _)
  have hrow : Between 0 (used ++ [last]) source.utf8ByteSize := by
    have hof : Remainder.Of source.toList ⟨0, source.toList⟩ := ⟨[], rfl, rfl⟩
    simpa only [htokens, byteLength_toList] using hscans.between hof
  obtain ⟨mid, hused, hlast, hend, hhi⟩ := between_append.mp hrow
  -- The script starts with its first token, whether that is the end of input or not.
  have hbelow : Laid .script (used.head?.getD last).span.start tree.children last.span.stop := by
    cases used with
    | nil => exact hbody.follows rfl hend
    | cons first rest =>
      have hfirst : Between first.span.start (first :: rest) mid := ⟨Nat.le_refl _, hused.2⟩
      exact (hbody.follows rfl hfirst).mono (Nat.le_refl _) (Nat.le_trans hlast hend)
  have hwhole : Laid .root 0 [tree] source.utf8ByteSize := by
    rw [htree]
    exact .single nofun nofun (Nat.zero_le _) hbelow hhi
  exact hwhole.nests

/-- Two variables, one with an initializer in parentheses, which leave no node. -/
theorem nests_of_parse_initialized :
    ∃ tree, parse "var a = (b.c), d; if (a) d = function () \x7b\x7d;" = .ok tree ∧
      tree.nodes.length = 17 ∧
      tree.Nests "var a = (b.c), d; if (a) d = function () \x7b\x7d;".utf8ByteSize := by
  have hcount : (parse "var a = (b.c), d; if (a) d = function () \x7b\x7d;").toOption.map
      (fun tree => tree.nodes.length) = some 17 := by decide +kernel
  cases hparse : parse "var a = (b.c), d; if (a) d = function () \x7b\x7d;" with
  | error refusal =>
    rw [hparse] at hcount
    cases hcount
  | ok tree =>
    rw [hparse] at hcount
    exact ⟨tree, rfl, Option.some.inj hcount, nests_of_parse hparse⟩

end RefCheck.Script
