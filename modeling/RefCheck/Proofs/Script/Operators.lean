import RefCheck.Proofs.Script.Partition
import RefCheck.Proofs.Script.Printed

/-!
# Chains of binary operators

Operands with binary operators between them are grouped by precedence: the chain parts at the
rightmost one of its loosest operators, and so do both sides of it (`grouping`). The parser finds
this tree from left to right, with one level for each operator (`gives_binary`), so it reads a
statement that is such a chain as its grouping (`parse_operators`).
-/

namespace RefCheck.Script

open RefCheck.Text Reader

/-- A binary operator and the operand behind it. -/
structure Link where
  op : Token
  operand : Token

namespace Link

/-- How tightly the operator binds. -/
def level (link : Link) : Nat := (precedence link.op.text).getD 0

def tokens (link : Link) : List Token := [link.op, link.operand]

/-- An operator of the table in front of a name. -/
structure Valid (link : Link) : Prop where
  op : link.op.kind = .operator
  known : (precedence link.op.text).isSome
  operand : link.operand.kind = .identifier

end Link

/-- The rightmost one of the loosest operators, with what stands before and behind it. -/
def splitLoosest : List Link → Option (List Link × Link × List Link)
  | [] => none
  | link :: rest =>
    match splitLoosest rest with
    | none => some ([], link, [])
    | some (before, loosest, after) =>
      if loosest.level ≤ link.level then some (link :: before, loosest, after)
      else some ([], link, rest)

section Split

variable {links before after : List Link} {link : Link}

theorem splitLoosest_eq_none (h : splitLoosest links = none) : links = [] := by
  cases links with
  | nil => rfl
  | cons link rest =>
    rw [splitLoosest] at h
    split at h
    · cases h
    · split at h <;> cases h

theorem splitLoosest_spec (h : splitLoosest links = some (before, link, after)) :
    links = before ++ link :: after ∧ (∀ l ∈ before, link.level ≤ l.level) ∧
      ∀ l ∈ after, link.level < l.level := by
  induction links generalizing before link after with
  | nil => cases h
  | cons first rest ih =>
    rw [splitLoosest] at h
    split at h
    · next hrest =>
      cases h
      rw [splitLoosest_eq_none hrest]
      exact ⟨rfl, List.forall_mem_nil _, List.forall_mem_nil _⟩
    · next earlier loosest later hrest =>
      obtain ⟨rfl, hearlier, hlater⟩ := ih hrest
      split at h
      · next hle =>
        cases h
        exact ⟨rfl, List.forall_mem_cons.mpr ⟨hle, hearlier⟩, hlater⟩
      · next hlt =>
        cases h
        have hless := Nat.not_le.mp hlt
        refine ⟨rfl, List.forall_mem_nil _, List.forall_mem_append.mpr
          ⟨fun l hl => Nat.lt_of_lt_of_le hless (hearlier l hl),
            List.forall_mem_cons.mpr ⟨hless, fun l hl => Nat.lt_trans hless (hlater l hl)⟩⟩⟩

/-- There is one such place only. -/
theorem splitLoosest_append (hbefore : ∀ l ∈ before, link.level ≤ l.level)
    (hafter : ∀ l ∈ after, link.level < l.level) :
    splitLoosest (before ++ link :: after) = some (before, link, after) := by
  induction before with
  | nil =>
    rw [List.nil_append, splitLoosest]
    cases hsplit : splitLoosest after with
    | none => rw [splitLoosest_eq_none hsplit]
    | some found =>
      obtain ⟨earlier, loosest, later⟩ := found
      have hmem : loosest ∈ after := by
        rw [(splitLoosest_spec hsplit).1]
        exact List.mem_append_right _ List.mem_cons_self
      exact if_neg (Nat.not_le.mpr (hafter _ hmem))
  | cons first rest ih =>
    obtain ⟨hfirst, hrest⟩ := List.forall_mem_cons.mp hbefore
    rw [List.cons_append, splitLoosest, ih hrest]
    exact if_pos hfirst

end Split

/-- The tree of an operand and what is linked to it. -/
def grouping (first : Token) (links : List Link) : Tree :=
  match _h : splitLoosest links with
  | none => first.toLeaf .name
  | some (before, loosest, after) =>
    let left := grouping first before
    let right := grouping loosest.operand after
    .node .binary loosest.op.text (left.span.to right.span) [left, right]
termination_by links.length
decreasing_by
  all_goals
    have := congrArg List.length (splitLoosest_spec _h).1
    simp only [List.length_append, List.length_cons] at this
    omega

theorem grouping_nil (first : Token) : grouping first [] = first.toLeaf .name := by
  rw [grouping]
  rfl

theorem grouping_append {first : Token} {before after : List Link} {link : Link}
    (hbefore : ∀ l ∈ before, link.level ≤ l.level) (hafter : ∀ l ∈ after, link.level < l.level) :
    grouping first (before ++ link :: after) =
      .node .binary link.op.text
        ((grouping first before).span.to (grouping link.operand after).span)
        [grouping first before, grouping link.operand after] := by
  rw [grouping]
  split
  · next hnone => rw [splitLoosest_append hbefore hafter] at hnone; cases hnone
  · next hsome =>
    rw [splitLoosest_append hbefore hafter] at hsome
    cases hsome
    rfl

/-- No operator stands above a looser one, and operators of equal precedence group to the left. -/
inductive Tree.Leans : Tree → Prop
  | operand {kind : NodeKind} {text : String} {span : Span} : (Tree.leaf kind text span).Leans
  | binary {op : String} {span : Span} {left right : Tree} : left.Leans → right.Leans →
      (left.kind = .binary → (precedence op).getD 0 ≤ (precedence left.text).getD 0) →
      (right.kind = .binary → (precedence op).getD 0 < (precedence right.text).getD 0) →
      (Tree.node .binary op span [left, right]).Leans

/-- At the top of a grouping stands one of its operators, unless there are none. -/
theorem grouping_top (first : Token) (links : List Link) :
    (grouping first links).kind = .binary →
      ∃ l ∈ links, (grouping first links).text = l.op.text := by
  rw [grouping]
  split
  · nofun
  · next before loosest after hsplit =>
    refine fun _ => ⟨loosest, ?_, rfl⟩
    rw [(splitLoosest_spec hsplit).1]
    exact List.mem_append_right _ List.mem_cons_self

theorem grouping_leans (first : Token) (links : List Link) : (grouping first links).Leans := by
  fun_induction grouping first links with
  | case1 => exact .operand
  | case2 first links before loosest after hsplit left right ihleft ihright =>
    obtain ⟨-, hbefore, hafter⟩ := splitLoosest_spec hsplit
    refine .binary ihleft ihright (fun hkind => ?_) fun hkind => ?_
    · obtain ⟨l, hl, htext⟩ := grouping_top first before hkind
      rw [htext]
      exact hbefore l hl
    · obtain ⟨l, hl, htext⟩ := grouping_top loosest.operand after hkind
      rw [htext]
      exact hafter l hl

namespace Reader

variable {α β : Type} {r : Reader α} {ts us vs : List Token} {t u : Token} {a : α} {b : β}

/-- Started where just these tokens are left, a reader answers, and leaves those. -/
def Gives (ts : List Token) (r : Reader α) (us : List Token) (a : α) : Prop :=
  ∀ c : Cursor, c.tokens = ts → ∃ rest, r c = .done a rest ∧ rest.tokens = us ∧ rest.fault = c.fault

theorem gives_pure : Gives ts (pure a : Reader α) ts a := fun c hc => ⟨c, rfl, hc, rfl⟩

theorem gives_bind {next : α → Reader β} (first : Gives ts r us a)
    (rest : Gives us (next a) vs b) : Gives ts (r >>= next) vs b := by
  intro c hc
  obtain ⟨mid, hr, hus, hmid⟩ := first c hc
  obtain ⟨last, hnext, hvs, hlast⟩ := rest mid hus
  refine ⟨last, ?_, hvs, hlast.trans hmid⟩
  dsimp only [bind]
  rw [hr]
  exact hnext

theorem gives_holding {tree : Tree} (h : Gives ts r us a) : Gives ts (holding tree r) us a := by
  intro c hc
  obtain ⟨rest, hr, hrest⟩ := h c hc
  exact ⟨rest, holding_eq_done_iff.mpr hr, hrest⟩

/-- A production is entered where a level is left for it. -/
theorem gives_nested {n : Nat} {production : Level → Reader α}
    (h : Gives ts (production (levelAbove (below n))) us a) :
    Gives ts (nested (below (n + 1)) production) us a := h

theorem gives_current {next : Token → Reader β} (h : Gives (t :: ts) (next t) us b) :
    Gives (t :: ts) (current >>= next) us b := by
  intro c hc
  obtain rfl : c.current = t := (List.cons.inj hc).1
  exact h c hc

theorem gives_isAt {kind : TokenKind} {next : Bool → Reader β}
    (h : Gives (t :: ts) (next (decide (t.kind = kind))) us b) :
    Gives (t :: ts) (isAt kind >>= next) us b := by
  intro c hc
  obtain rfl : c.current = t := (List.cons.inj hc).1
  exact h c hc

theorem gives_advance : Gives (t :: u :: ts) advance (u :: ts) t := by
  intro c hc
  obtain ⟨now, ahead, fault⟩ := c
  obtain ⟨rfl, rfl⟩ : now = t ∧ ahead = u :: ts := List.cons.inj hc
  exact ⟨⟨u, ts, fault⟩, rfl, rfl, rfl⟩

theorem gives_following {next : TokenKind → Reader β}
    (h : Gives (t :: u :: ts) (next u.kind) us b) :
    Gives (t :: u :: ts) (following >>= next) us b := by
  intro c hc
  obtain ⟨now, ahead, fault⟩ := c
  obtain ⟨rfl, rfl⟩ : now = t ∧ ahead = u :: ts := List.cons.inj hc
  exact h _ hc

theorem gives_perToken {loop : Nat → Reader α} (h : Gives ts (loop ts.length) us a) :
    Gives ts (perToken loop) us a := by
  rintro c rfl
  exact h c rfl

/-- A reader of items is done where the closing token is at hand. -/
theorem gives_upTo_end {closing : TokenKind} {wanted : Wanted} {item : Reader Tree} {fuel : Nat}
    (ht : t.kind = closing) (hfuel : 0 < fuel) :
    Gives (t :: ts) (upTo closing wanted item fuel) (t :: ts) [] := by
  obtain ⟨fuel, rfl⟩ := Nat.exists_eq_add_one.mpr hfuel
  refine gives_isAt ?_
  rw [decide_eq_true ht]
  exact gives_pure

theorem gives_upTo_item {closing : TokenKind} {wanted : Wanted} {item : Reader Tree} {fuel : Nat}
    {tree : Tree} {trees : List Tree} (ht : t.kind ≠ closing ∧ t.kind ≠ .endOfInput)
    (first : Gives (t :: ts) item us tree)
    (rest : Gives us (upTo closing wanted item fuel) vs trees) :
    Gives (t :: ts) (upTo closing wanted item (fuel + 1)) vs (tree :: trees) := by
  refine gives_isAt ?_
  rw [decide_eq_false ht.1]
  refine gives_isAt ?_
  rw [decide_eq_false ht.2]
  exact gives_bind first (gives_bind (gives_holding rest) gives_pure)

end Reader

section Chain

variable {n floor : Nat} {first stop : Token} {links : List Link} {more : List Token}

/-- The tokens of some links. -/
abbrev linkTokens (links : List Link) : List Token := links.flatMap Link.tokens

/-- A name is an operand if neither a member nor a call follows. -/
theorem gives_name (hfirst : first.kind = .identifier) (hdot : stop.kind ≠ .dot)
    (hopening : stop.kind ≠ .openParen) :
    Gives (first :: stop :: more) (unary (below n)) (stop :: more) (first.toLeaf .name) := by
  refine gives_current ?_
  have hplain : first.isUnaryOperator = false := by rw [Token.isUnaryOperator, hfirst]
  have hleaf : first.kind.leafKind = some .name := by rw [hfirst]; rfl
  rw [hplain]
  refine @gives_bind _ _ _ _ (stop :: more) _ (first.toLeaf .name) _ _ ?_ ?_
  · refine gives_current ?_
    rw [hleaf]
    exact gives_bind gives_advance gives_pure
  · refine gives_current ?_
    rw [if_neg (by simp [hdot, hopening])]
    exact gives_pure

/-- A chain ends at a token that is no operator. -/
theorem gives_binaryChain_end {left : Tree} (hstop : (stop.precedenceAbove floor).isSome = false) :
    Gives (stop :: more) (binaryChain (below n) floor left) (stop :: more) left := by
  refine gives_current ?_
  rw [hstop]
  exact gives_pure

/-- What may stand behind a chain. -/
structure Token.Ends (stop : Token) : Prop where
  dot : stop.kind ≠ .dot
  opening : stop.kind ≠ .openParen
  operator : stop.kind ≠ .operator

/-- Behind an operand stands an operator or the end of the chain. -/
theorem linkTokens_head (hlinks : ∀ l ∈ links, l.Valid) (stop : Token) (more : List Token) :
    ∃ u us, linkTokens links ++ stop :: more = u :: us ∧ (u.kind = .operator ∨ u = stop) := by
  cases links with
  | nil => exact ⟨stop, more, rfl, .inr rfl⟩
  | cons link rest =>
    exact ⟨link.op, link.operand :: (linkTokens rest ++ stop :: more), rfl,
      .inl (hlinks link List.mem_cons_self).op⟩

theorem Token.Ends.precedenceAbove (h : stop.Ends) (floor : Nat) :
    (stop.precedenceAbove floor).isSome = false := by
  simp [Token.precedenceAbove, h.operator]

theorem Link.Valid.precedenceAbove {link : Link} (h : link.Valid) (floor : Nat) :
    (link.op.precedenceAbove floor).isSome = decide (floor < link.level) := by
  obtain ⟨p, hp⟩ := Option.isSome_iff_exists.mp h.known
  have hlevel : link.level = p := by rw [Link.level, hp]; rfl
  rw [Token.precedenceAbove, if_pos h.op, hp, hlevel, Option.filter_some]
  by_cases hlt : floor < p <;> simp [hlt]

/-- The links that an operand takes where only operators above a floor may be taken, and the links
that it leaves. -/
abbrev taken (floor : Nat) (links : List Link) : List Link :=
  links.takeWhile fun l => floor < l.level

abbrev left (floor : Nat) (links : List Link) : List Link :=
  links.dropWhile fun l => floor < l.level

theorem lt_of_mem_taken {l : Link} (h : l ∈ taken floor links) : floor < l.level := by
  simpa using List.mem_takeWhile_imp h

/-- The first link that is left binds no more tightly than the floor. -/
theorem le_of_mem_head?_left {next : Link} (h : next ∈ (left floor links).head?) :
    next.level ≤ floor := by
  have hnot := List.head?_dropWhile_not (fun l => decide (floor < l.level)) links
  rw [Option.mem_def.mp h] at hnot
  simpa using hnot

/-- Above a lower floor a link is taken with all that its own operand takes, and more of what that
leaves. -/
theorem taken_cons {link : Link} (rest : List Link) (hlevel : floor < link.level) :
    taken floor (link :: rest) =
        link :: taken link.level rest ++ taken floor (left link.level rest) ∧
      left floor (link :: rest) = left floor (left link.level rest) := by
  have htight : ∀ l ∈ taken link.level rest, decide (floor < l.level) = true := fun l hl =>
    decide_eq_true (Nat.lt_trans hlevel (lt_of_mem_taken hl))
  have hparts : taken link.level rest ++ left link.level rest = rest :=
    List.takeWhile_append_dropWhile
  constructor
  · calc taken floor (link :: rest)
        = link :: taken floor rest := List.takeWhile_cons_of_pos (by simpa using hlevel)
      _ = link :: taken floor (taken link.level rest ++ left link.level rest) := by rw [hparts]
      _ = link :: (taken link.level rest ++ taken floor (left link.level rest)) := by
          rw [taken, List.takeWhile_append_of_pos htight]
  · calc left floor (link :: rest)
        = left floor rest := List.dropWhile_cons_of_pos (by simpa using hlevel)
      _ = left floor (taken link.level rest ++ left link.level rest) := by rw [hparts]
      _ = left floor (left link.level rest) := by
          rw [left, List.dropWhile_append_of_pos htight]

/-- An operand and what is linked to it, if the chain behind it is known. -/
theorem gives_binary {us : List Token} {tree : Tree} (hfirst : first.kind = .identifier)
    (hlinks : ∀ l ∈ links, l.Valid) (hstop : stop.Ends)
    (hchain : Gives (linkTokens links ++ stop :: more)
      (binaryChain (below n) floor (grouping first [])) us tree) :
    Gives (first :: (linkTokens links ++ stop :: more)) (binary (below n) floor) us tree := by
  obtain ⟨u, behind, hhead, hu⟩ := linkTokens_head hlinks stop more
  have hbehind : u.kind ≠ .dot ∧ u.kind ≠ .openParen := by
    rcases hu with hu | rfl
    · simp [hu]
    · exact ⟨hstop.dot, hstop.opening⟩
  rw [grouping_nil] at hchain
  rw [hhead] at hchain ⊢
  exact gives_bind (gives_name hfirst hbehind.1 hbehind.2) hchain

/-- The right operand takes all that binds more tightly than its operator. -/
theorem gives_binaryStep {link : Link} {before : List Link} (hlink : link.Valid)
    (hlinks : ∀ l ∈ links, l.Valid) (hstop : stop.Ends)
    (hbefore : ∀ l ∈ before, link.level ≤ l.level)
    (hchain : Gives (linkTokens links ++ stop :: more)
      (binaryChain (below n) link.level (grouping link.operand []))
      (linkTokens (left link.level links) ++ stop :: more)
      (grouping link.operand (taken link.level links))) :
    Gives (linkTokens (link :: links) ++ stop :: more)
      (binaryStep (below n) (grouping first before))
      (linkTokens (left link.level links) ++ stop :: more)
      (grouping first (before ++ link :: taken link.level links)) := by
  rw [grouping_append hbefore fun l hl => lt_of_mem_taken hl]
  exact gives_bind gives_advance
    (gives_bind (gives_binary hlink.operand hlinks hstop hchain) gives_pure)

/-- With a level for each link the parser groups the links that bind more tightly than the floor.
Those that are in the tree already bind as tightly as the next one. -/
theorem gives_binaryChain (hlinks : ∀ l ∈ links, l.Valid) (hstop : stop.Ends)
    (hcount : links.length ≤ n) {before : List Link}
    (hbefore : ∀ next ∈ links.head?, ∀ l ∈ before, next.level ≤ l.level) :
    Gives (linkTokens links ++ stop :: more) (binaryChain (below n) floor (grouping first before))
      (linkTokens (left floor links) ++ stop :: more)
      (grouping first (before ++ taken floor links)) := by
  induction n generalizing links floor first before with
  | zero =>
    obtain rfl : links = [] := List.eq_nil_of_length_eq_zero (Nat.le_zero.mp hcount)
    simpa using gives_binaryChain_end (hstop.precedenceAbove floor)
  | succ n ih =>
    cases links with
    | nil => simpa using gives_binaryChain_end (hstop.precedenceAbove floor)
    | cons link rest =>
      obtain ⟨hlink, hrest⟩ := List.forall_mem_cons.mp hlinks
      have hop := hlink.precedenceAbove floor
      have hlength : rest.length ≤ n := Nat.le_of_succ_le_succ hcount
      by_cases hlevel : floor < link.level
      · obtain ⟨htaken, hleft⟩ := taken_cons rest hlevel
        have hright : Gives (linkTokens rest ++ stop :: more)
            (binaryChain (below n) link.level (grouping link.operand []))
            (linkTokens (left link.level rest) ++ stop :: more)
            (grouping link.operand (taken link.level rest)) :=
          ih hrest hlength fun _ _ => List.forall_mem_nil _
        have hgrown : before ++ taken floor (link :: rest) =
            before ++ link :: taken link.level rest ++ taken floor (left link.level rest) := by
          rw [htaken, List.append_assoc]
        rw [hgrown, hleft]
        refine gives_current ?_
        rw [hop, decide_eq_true hlevel]
        refine gives_bind
          (gives_holding (gives_binaryStep hlink hrest hstop (hbefore link rfl) hright))
          (ih ?_ ?_ ?_)
        · exact fun l hl => hrest l (List.dropWhile_subset _ hl)
        · exact Nat.le_trans (List.dropWhile_sublist _).length_le hlength
        · intro next hnext l hl
          have hle : next.level ≤ link.level := le_of_mem_head?_left hnext
          rcases List.mem_append.mp hl with hl | hl
          · exact Nat.le_trans hle (hbefore link rfl l hl)
          rcases List.mem_cons.mp hl with rfl | hl
          · exact hle
          · exact Nat.le_trans hle (Nat.le_of_lt (lt_of_mem_taken hl))
      · rw [taken, left, List.takeWhile_cons_of_neg (by simpa using hlevel),
          List.dropWhile_cons_of_neg (by simpa using hlevel), List.append_nil]
        exact gives_binaryChain_end (by rw [hop, decide_eq_false hlevel])

theorem Link.Valid.level_pos {link : Link} (h : link.Valid) : 0 < link.level := by
  obtain ⟨p, hp⟩ := Option.isSome_iff_exists.mp h.known
  rw [Link.level, hp]
  exact precedence_pos hp

/-- With two levels more than links the parser reads a chain and a semicolon as a statement. -/
theorem gives_statement {semicolon last : Token} (hfirst : first.kind = .identifier)
    (hlinks : ∀ l ∈ links, l.Valid) (hsemicolon : semicolon.kind = .semicolon)
    (hcount : links.length ≤ n) :
    Gives (first :: (linkTokens links ++ [semicolon, last])) (statement (below (n + 2))) [last]
      (.node .exprResult "" ((grouping first links).span.to semicolon.span)
        [grouping first links]) := by
  have hstop : semicolon.Ends := by constructor <;> simp [hsemicolon]
  have hall : ∀ l ∈ links, decide (0 < l.level) = true := fun l hl =>
    decide_eq_true (hlinks l hl).level_pos
  have hchain : Gives (linkTokens links ++ [semicolon, last])
      (binaryChain (below n) 0 (grouping first []))
      (linkTokens (left 0 links) ++ [semicolon, last]) (grouping first ([] ++ taken 0 links)) :=
    gives_binaryChain hlinks hstop hcount fun _ _ => List.forall_mem_nil _
  rw [left, List.dropWhile_eq_nil_iff.mpr hall, taken, List.takeWhile_eq_self_iff.mpr hall]
    at hchain
  have hvalue : Gives (first :: (linkTokens links ++ [semicolon, last]))
      (assignment (below (n + 1))) [semicolon, last] (grouping first links) := by
    refine gives_bind (gives_binary hfirst hlinks hstop hchain) (gives_isAt ?_)
    rw [decide_eq_false (by simp [hsemicolon])]
    exact gives_pure
  have hfinish : Gives [semicolon, last] (finish (grouping first links).span) [last]
      ((grouping first links).span.to semicolon.span) := by
    refine gives_isAt ?_
    rw [decide_eq_true hsemicolon]
    exact gives_bind gives_advance gives_pure
  obtain ⟨u, behind, hhead, hu⟩ := linkTokens_head hlinks semicolon [last]
  have hlabel : u.kind ≠ .colon := by rcases hu with hu | rfl <;> simp [*]
  have hexpr : Gives (first :: (linkTokens links ++ [semicolon, last]))
      (exprStatement (assignment (below (n + 1)))) [last]
      (.node .exprResult "" ((grouping first links).span.to semicolon.span)
        [grouping first links]) :=
    gives_bind hvalue (gives_bind (gives_holding hfinish) gives_pure)
  rw [hhead] at hexpr ⊢
  refine gives_nested (gives_current ?_)
  rw [hfirst]
  refine gives_following ?_
  rwa [if_neg hlabel]

/-- The whole script. -/
theorem gives_script {semicolon last : Token} (hfirst : first.kind = .identifier)
    (hlinks : ∀ l ∈ links, l.Valid) (hsemicolon : semicolon.kind = .semicolon)
    (hlast : last.kind = .endOfInput) (hcount : links.length + 2 ≤ maxNesting) :
    Gives (first :: (linkTokens links ++ [semicolon, last])) script [last]
      (.node .script "" ⟨first.span.start, last.span.stop⟩
        [.node .exprResult "" ((grouping first links).span.to semicolon.span)
          [grouping first links]]) := by
  obtain ⟨n, hn⟩ := Nat.exists_eq_add_of_le' (Nat.le_of_add_left_le hcount)
  have hitem : Gives (first :: (linkTokens links ++ [semicolon, last])) (statement (below (n + 2)))
      [last] (.node .exprResult "" ((grouping first links).span.to semicolon.span)
        [grouping first links]) :=
    gives_statement hfirst hlinks hsemicolon (by omega)
  rw [← hn] at hitem
  refine gives_current (gives_bind ?_ (gives_current gives_pure))
  refine gives_perToken (gives_upTo_item (by simp [hfirst]) hitem (gives_upTo_end hlast ?_))
  simp

end Chain

/-- Names with operators between them, each after a space, and a semicolon. -/
def chainText (first : String) : List (String × String) → String
  | [] => first ++ ";"
  | (op, name) :: rest => first ++ " " ++ op ++ " " ++ chainText name rest

section Text

variable {rest : List Char}

/-- A name is found and cut off in front of anything that cannot be a part of it. -/
theorem scan_name {name : String} (h : (Word.name name).Spelled)
    (hrest : ∀ c ∈ rest.head?, isNamePart c = false) (offset : Nat) :
    ∃ t after, scan ⟨offset, name.toList ++ rest⟩ = .ok (t, ⟨after, rest⟩) ∧
      t.word = .name name := by
  have hspells : Spells .identifier name.toList := h
  generalize hkind : TokenKind.identifier = kind at hspells
  generalize hword : name.toList = word at hspells
  cases hspells with
  | @word c tail hstart htail =>
    have hgap : skipGap .open offset (c :: tail ++ rest) = .ok ⟨offset, c :: tail ++ rest⟩ := by
      refine skipGap_open (isBlank_of_isNameStart hstart) ?_
      rintro rfl
      exact absurd hstart (by decide)
    have hends : rest.takeWhile isNamePart = [] ∧ rest.dropWhile isNamePart = rest := by
      cases rest with
      | nil => exact ⟨rfl, rfl⟩
      | cons d rest => simp [hrest d rfl]
    have hcut : cut (c :: tail ++ rest) = .ok ⟨.identifier, c :: tail, rest⟩ := by
      rw [hkind, List.cons_append, cut, if_pos hstart, List.takeWhile_append_of_pos htail,
        List.dropWhile_append_of_pos htail, hends.1, hends.2, List.append_nil]
    refine ⟨⟨.identifier, name, ⟨offset, offset + byteLength (c :: tail)⟩⟩,
      offset + byteLength (c :: tail), ?_, rfl⟩
    have hname : String.ofList (c :: tail) = name := by rw [← hword, String.ofList_toList]
    rw [scan, hgap]
    dsimp only
    rw [hcut]
    simp [Lexeme.text, hname]
  | mark hmark =>
    unfold markKind at hmark
    split at hmark <;> cases hmark <;> cases hkind
  | _ => cases hkind

/-- The operators of the table are written as they are. -/
theorem spelled_of_precedence {op : String} (h : (precedence op).isSome) :
    (Word.mk .operator op).Spelled := by
  have hop : op.toList ∈ operators := by
    unfold precedence at h
    split at h
    all_goals first | decide | cases h
  exact .operator hop

/-- The operator and the operand of a link, as they are written. -/
def Link.words (link : Link) : Word × Word := (link.op.word, link.operand.word)

def writtenLink (link : String × String) : Word × Word := (⟨.operator, link.1⟩, .name link.2)

/-- The tokens of a written chain are its names and operators, a semicolon and the end. -/
theorem scans_chainText {first : String} {links : List (String × String)}
    (hfirst : (Word.name first).Spelled)
    (hlinks : ∀ l ∈ links, (precedence l.1).isSome ∧ (Word.name l.2).Spelled) (offset : Nat) :
    ∃ t ts semicolon last, t.word = .name first ∧ ts.map Link.words = links.map writtenLink ∧
      semicolon.kind = .semicolon ∧ last.kind = .endOfInput ∧
      Scans ⟨offset, (chainText first links).toList⟩
        ⟨t :: (linkTokens ts ++ [semicolon, last]), none⟩ := by
  induction links generalizing first offset with
  | nil =>
    have hend : ∀ c ∈ [';'].head?, isNamePart c = false := by
      rintro _ ⟨⟩
      decide
    obtain ⟨t, after, hscan, ht⟩ := scan_name hfirst hend offset
    have hkind : t.kind = .identifier := congrArg Word.kind ht
    have htext : (chainText first []).toList = first.toList ++ [';'] := String.toList_append
    refine ⟨t, [], ⟨.semicolon, ";", ⟨after, after + 1⟩⟩,
      ⟨.endOfInput, "", ⟨after + 1, after + 1⟩⟩, ht, rfl, rfl, rfl, ?_⟩
    rw [htext]
    exact .goes hscan (by simp [hkind]) (.goes rfl nofun (.ends rfl rfl))
  | cons link rest ih =>
    obtain ⟨op, name⟩ := link
    obtain ⟨⟨hop, hname⟩, hrest⟩ := List.forall_mem_cons.mp hlinks
    have htext : (chainText first ((op, name) :: rest)).toList =
        first.toList ++ ' ' :: (op.toList ++ ' ' :: (chainText name rest).toList) := by
      simp [chainText]
    have hspace : ∀ c ∈ (' ' :: (op.toList ++ ' ' :: (chainText name rest).toList)).head?,
        isNamePart c = false := by
      rintro _ ⟨⟩
      decide
    obtain ⟨t, after, hscan, ht⟩ := scan_name hfirst hspace offset
    obtain ⟨o, stop, hscanop, ho⟩ := scan_word (spelled_of_precedence hop)
      (.space (chainText name rest).toList) (after + 1)
    obtain ⟨u, us, semicolon, last, hu, hus, hsemicolon, hlast, hscans⟩ :=
      ih hname hrest (stop + 1)
    have hkind : t.kind = .identifier := congrArg Word.kind ht
    have hokind : o.kind = .operator := congrArg Word.kind ho
    refine ⟨t, ⟨o, u⟩ :: us, semicolon, last, ht, ?_, hsemicolon, hlast, ?_⟩
    · rw [List.map_cons, List.map_cons, hus, Link.words, ho, hu, writtenLink]
    · have hnext : scan ⟨after, ' ' :: (op.toList ++ ' ' :: (chainText name rest).toList)⟩ =
          .ok (o, ⟨stop, ' ' :: (chainText name rest).toList⟩) := hscanop
      have hbehind : Scans ⟨stop, ' ' :: (chainText name rest).toList⟩
          ⟨u :: (linkTokens us ++ [semicolon, last]), none⟩ := hscans.of_scan rfl
      rw [htext]
      exact .goes hscan (by simp [hkind]) (.goes hnext (by simp [hokind]) hbehind)

end Text

/-- A chain of names and binary operators is read as its grouping, in which no operator stands above
a looser one and those of equal precedence group to the left. -/
theorem parse_operators (first : String) (links : List (String × String))
    (hfirst : (Word.name first).Spelled)
    (hlinks : ∀ l ∈ links, (precedence l.1).isSome ∧ (Word.name l.2).Spelled)
    (hcount : links.length + 2 ≤ maxNesting) :
    ∃ t ts semicolon last,
      tokenize (chainText first links) = ⟨t :: (linkTokens ts ++ [semicolon, last]), none⟩ ∧
      t.word = .name first ∧ ts.map Link.words = links.map writtenLink ∧
      parse (chainText first links) = .ok (.node .script "" ⟨t.span.start, last.span.stop⟩
        [.node .exprResult "" ((grouping t ts).span.to semicolon.span) [grouping t ts]]) ∧
      (grouping t ts).Leans := by
  obtain ⟨t, ts, semicolon, last, ht, hts, hsemicolon, hlast, hscans⟩ :=
    scans_chainText hfirst hlinks 0
  have htokens : tokenize (chainText first links) =
      ⟨t :: (linkTokens ts ++ [semicolon, last]), none⟩ :=
    (scans_scanUpTo _ (Nat.lt_succ_self _)).unique hscans
  have hvalid : ∀ l ∈ ts, l.Valid := by
    intro l hl
    have hwords : l.words ∈ links.map writtenLink := hts ▸ List.mem_map_of_mem hl
    obtain ⟨written, hwritten, heq⟩ := List.mem_map.mp hwords
    obtain ⟨hop, hoperand⟩ := Prod.mk.inj heq.symm
    have htext : l.op.text = written.1 := congrArg Word.text hop
    exact ⟨congrArg Word.kind hop, htext ▸ (hlinks written hwritten).1,
      congrArg Word.kind hoperand⟩
  have hlength : ts.length + 2 ≤ maxNesting := by
    have hsame : ts.length = links.length := by simpa using congrArg List.length hts
    rwa [hsame]
  have hkind : t.kind = .identifier := congrArg Word.kind ht
  obtain ⟨rest, hscript, -⟩ := gives_script hkind hvalid hsemicolon hlast hlength
    ⟨t, linkTokens ts ++ [semicolon, last], none⟩ rfl
  refine ⟨t, ts, semicolon, last, htokens, ht, hts, ?_, grouping_leans t ts⟩
  rw [parse, htokens]
  dsimp only
  rw [hscript]

example : (parse "a - b * c - d < e;").toOption.map Tree.print =
    some "( ( ( a - ( b * c ) ) - d ) < e ) ;" := by decide +kernel

/-- Two operators of equal precedence around a tighter one, and a looser one behind them. -/
theorem parse_operators_mixed :
    (Word.name "a").Spelled ∧
      (∀ l ∈ [("-", "b"), ("*", "c"), ("-", "d"), ("<", "e")],
        (precedence l.1).isSome ∧ (Word.name l.2).Spelled) ∧
      [("-", "b"), ("*", "c"), ("-", "d"), ("<", "e")].length + 2 ≤ maxNesting ∧
      chainText "a" [("-", "b"), ("*", "c"), ("-", "d"), ("<", "e")] = "a - b * c - d < e;" ∧
      ∃ t ts semicolon last,
        tokenize "a - b * c - d < e;" = ⟨t :: (linkTokens ts ++ [semicolon, last]), none⟩ ∧
        t.word = .name "a" ∧
        ts.map Link.words = [("-", "b"), ("*", "c"), ("-", "d"), ("<", "e")].map writtenLink ∧
        parse "a - b * c - d < e;" = .ok (.node .script "" ⟨t.span.start, last.span.stop⟩
          [.node .exprResult "" ((grouping t ts).span.to semicolon.span) [grouping t ts]]) ∧
        (grouping t ts).Leans := by
  have hletter : ∀ c ∈ ['a', 'b', 'c', 'd', 'e'],
      isNameStart c ∧ wordKind [c] = .identifier := by
    simp only [List.forall_mem_cons, List.not_mem_nil, false_implies, implies_true, and_true]
    decide
  have hname : ∀ c ∈ ['a', 'b', 'c', 'd', 'e'], (Word.name (String.ofList [c])).Spelled := by
    intro c hc
    have hspells : Spells (wordKind [c]) [c] := .word (hletter c hc).1 (List.forall_mem_nil _)
    rw [(hletter c hc).2] at hspells
    simpa [Word.Spelled, Word.chars, Word.name] using hspells
  have hfirst : (Word.name "a").Spelled := hname 'a' (by decide)
  have hlinks : ∀ l ∈ [("-", "b"), ("*", "c"), ("-", "d"), ("<", "e")],
      (precedence l.1).isSome ∧ (Word.name l.2).Spelled := by
    simp only [List.forall_mem_cons, List.not_mem_nil, false_implies, implies_true, and_true]
    exact ⟨⟨rfl, hname 'b' (by decide)⟩, ⟨rfl, hname 'c' (by decide)⟩,
      ⟨rfl, hname 'd' (by decide)⟩, rfl, hname 'e' (by decide)⟩
  have htext : chainText "a" [("-", "b"), ("*", "c"), ("-", "d"), ("<", "e")] =
      "a - b * c - d < e;" := by decide
  exact ⟨hfirst, hlinks, by decide, htext, htext ▸ parse_operators "a" _ hfirst hlinks (by decide)⟩

end RefCheck.Script
