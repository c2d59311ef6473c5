import RefCheck.Proofs.Script.Counting
import RefCheck.Proofs.Script.Partition

/-!
# The counter and the levels

The productions come to the same, whether run by readers that count or with the levels that are
left (`entry_within`): the counter and the levels come to the most nesting there may be. So a run
comes to an end, with the counter back where it was and never above its bound, and no chain of calls
goes through more counted entries than that (`parse_bounded`).
-/

namespace RefCheck.Script

open RefCheck.Text

namespace Reader

variable {α β : Type}

/-- Wherever a reader is started before the end or a fault, it stops before it. -/
def Safe (r : Reader α) : Prop :=
  ∀ c a d, Sealed c.fault c.tokens → r c = .done a d → Sealed d.fault d.tokens

theorem Safe.of_takes {r : Reader α} {M : α → List Token → Token → Prop}
    (h : ∀ n t, Takes n t r M) : r.Safe := by
  intro c a d hc hr
  obtain ⟨used, htokens, hfault, -⟩ := h _ _ c hc rfl (Nat.lt_succ_self _) a d hr
  rw [htokens, ← hfault] at hc
  exact hc.of_append (List.cons_ne_nil _ _)

theorem safe_pure (a : α) : (pure a : Reader α).Safe := by
  rintro c _ _ hc ⟨⟩
  exact hc

theorem safe_bind {r : Reader α} {next : α → Reader β} (hr : r.Safe) (hnext : ∀ a, (next a).Safe) :
    (r >>= next).Safe := by
  intro c b d hc h
  obtain ⟨a, e, hfirst, hrest⟩ := bind_eq_done_iff.mp h
  exact hnext a e b d (hr c a e hc hfirst) hrest

theorem safe_ite {p : Prop} [Decidable p] {r s : Reader α} (hr : r.Safe) (hs : s.Safe) :
    (if p then r else s).Safe := by
  split
  · exact hr
  · exact hs

theorem safe_holding {tree : Tree} {r : Reader α} (hr : r.Safe) : (holding tree r).Safe :=
  fun c a d hc h => hr c a d hc (holding_eq_done_iff.mp h)

theorem safe_current : current.Safe := by
  rintro c _ _ hc ⟨⟩
  exact hc

theorem safe_isAt (kind : TokenKind) : (isAt kind).Safe := by
  rintro c _ _ hc ⟨⟩
  exact hc

theorem safe_fail (fault : Fault) : (fail fault : Reader α).Safe := by
  rintro c _ _ _ ⟨⟩

theorem safe_failAt (fault : Fault) (span : Span) : (failAt fault span : Reader α).Safe := by
  rintro c _ _ _ ⟨⟩

theorem safe_missing (wanted : Wanted) : (missing wanted : Reader α).Safe :=
  safe_bind safe_current fun _ => safe_fail _

theorem safe_following : following.Safe := by
  rintro ⟨now, ahead, fault⟩ a d hc h
  cases ahead with
  | nil =>
    cases fault <;> cases h
    exact hc
  | cons next rest =>
    cases h
    exact hc

theorem safe_advance : advance.Safe := by
  rintro ⟨now, ahead, fault⟩ a d hc h
  cases ahead with
  | nil =>
    cases fault <;> cases h
    exact hc
  | cons next rest =>
    cases h
    have hsealed : Sealed fault ([now] ++ next :: rest) := hc
    exact hsealed.of_append (List.cons_ne_nil _ _)

theorem safe_eat (kind : TokenKind) : (eat kind).Safe :=
  safe_bind (safe_isAt kind) fun _ =>
    safe_ite (safe_bind safe_advance fun _ => safe_pure _) (safe_pure _)

theorem safe_expect (kind : TokenKind) (wanted : Wanted) : (expect kind wanted).Safe :=
  safe_bind (safe_isAt kind) fun _ => safe_ite safe_advance (safe_missing _)

/-- No reader of one token puts tokens back. -/
theorem length_advance_le {c d : Cursor} {a : Token} (h : advance c = .done a d) :
    d.ahead.length ≤ c.ahead.length := by
  obtain ⟨now, ahead, fault⟩ := c
  cases ahead with
  | nil =>
    cases fault <;> cases h
    exact Nat.le_refl _
  | cons next rest =>
    cases h
    exact Nat.le_succ _

theorem length_eat_le {kind : TokenKind} {c d : Cursor} {found : Bool}
    (h : eat kind c = .done found d) : d.ahead.length ≤ c.ahead.length := by
  obtain ⟨here, e, ⟨⟩, h⟩ := bind_eq_done_iff.mp h
  split at h
  · obtain ⟨token, x, hadvance, ⟨⟩⟩ := bind_eq_done_iff.mp h
    exact length_advance_le hadvance
  · cases h
    exact Nat.le_refl _

end Reader

open Reader

theorem safe_finish (span : Span) : (finish span).Safe :=
  safe_bind (safe_isAt _) fun _ =>
    safe_ite (safe_bind safe_advance fun _ => safe_pure _) (safe_pure _)

theorem safe_functionName (keyword : Token) : (functionName keyword).Safe :=
  safe_bind (safe_isAt _) fun _ =>
    safe_ite (safe_bind safe_advance fun _ => safe_pure _) (safe_pure _)

theorem safe_parameter : parameter.Safe := .of_takes reads_parameter

theorem safe_jumpStatement (kind : NodeKind) : (jumpStatement kind).Safe := by
  refine safe_bind safe_advance fun keyword => safe_bind (safe_isAt _) fun _ => safe_ite ?_ ?_
  · exact safe_bind safe_advance fun token =>
      safe_bind (safe_holding (safe_finish _)) fun _ => safe_pure _
  · exact safe_bind (safe_finish _) fun _ => safe_pure _

namespace Metered

variable {α β : Type} {P : Nat → Prop} {depth : Nat} {r : Metered α} {s : Reader α}

/-- A run comes to what a reader comes to, is not exhausted, and leaves the counter as `P` says. -/
inductive Agrees (P : Nat → Prop) : Run α → Outcome α → Prop
  | done {a : α} {d : Cursor} {m : Meter} : Sealed d.fault d.tokens → P m.depth →
      m.peak ≤ maxNesting → Agrees P (.done a d m) (.done a d)
  | failed {error : SyntaxError} {loose : List Tree} {m : Meter} : P m.depth →
      m.peak ≤ maxNesting → Agrees P (.failed error loose m) (.failed error loose)

/-- At this depth the one reader does what the other one does. -/
def Follows (P : Nat → Prop) (depth : Nat) (r : Metered α) (s : Reader α) : Prop :=
  ∀ c m, Sealed c.fault c.tokens → m.depth = depth → m.peak ≤ maxNesting → Agrees P (r c m) (s c)

/-- The same, and the counter is back where it was. -/
abbrev Settles (depth : Nat) (r : Metered α) (s : Reader α) : Prop := Follows (· = depth) depth r s

/-- The same, and the counter may be higher than it was. -/
abbrev Climbs (depth : Nat) (r : Metered α) (s : Reader α) : Prop :=
  Follows (fun _ => True) depth r s

theorem Settles.climbs (h : Settles depth r s) : Climbs depth r s := by
  intro c m hc hm hpeak
  have hrun := h c m hc hm hpeak
  generalize r c m = run at hrun
  generalize s c = outcome at hrun
  cases hrun with
  | done hd _ hpeak => exact .done hd trivial hpeak
  | failed _ hpeak => exact .failed trivial hpeak

theorem settles_pure (a : α) : Settles depth (pure a) (pure a) :=
  fun _ _ hc hm hpeak => .done hc hm hpeak

theorem agrees_bind {next : α → Metered β} {next' : α → Reader β} {c : Cursor} {m : Meter}
    (first : Agrees (· = depth) (r c m) (s c)) (hP : P depth)
    (rest : ∀ a d m, s c = .done a d → Sealed d.fault d.tokens → m.depth = depth →
      m.peak ≤ maxNesting → Agrees P (next a d m) (next' a d)) :
    Agrees P ((r >>= next) c m) ((s >>= next') c) := by
  dsimp only [bind]
  generalize r c m = run at first
  generalize houtcome : s c = outcome at first
  cases first with
  | done hd hm hpeak => exact rest _ _ _ houtcome hd hm hpeak
  | failed hm hpeak => exact .failed (hm ▸ hP) hpeak

theorem follows_bind {next : α → Metered β} {next' : α → Reader β} (first : Settles depth r s)
    (hP : P depth) (rest : ∀ a, Follows P depth (next a) (next' a)) :
    Follows P depth (r >>= next) (s >>= next') :=
  fun c m hc hm hpeak => agrees_bind (first c m hc hm hpeak) hP fun a d m _ => rest a d m

theorem settles_bind {next : α → Metered β} {next' : α → Reader β} (first : Settles depth r s)
    (rest : ∀ a, Settles depth (next a) (next' a)) : Settles depth (r >>= next) (s >>= next') :=
  follows_bind first rfl rest

theorem agrees_holdingAll {trees : List Tree} {c : Cursor} {m : Meter}
    (h : Agrees P (r c m) (s c)) :
    Agrees P (holdingAll trees r c m) (Reader.holdingAll trees s c) := by
  dsimp only [holdingAll, Reader.holdingAll]
  generalize r c m = run at h
  generalize s c = outcome at h
  cases h with
  | done hd hm hpeak => exact .done hd hm hpeak
  | failed hm hpeak => exact .failed hm hpeak

theorem follows_holdingAll {trees : List Tree} (h : Follows P depth r s) :
    Follows P depth (holdingAll trees r) (Reader.holdingAll trees s) :=
  fun c m hc hm hpeak => agrees_holdingAll (h c m hc hm hpeak)

theorem follows_holding {tree : Tree} (h : Follows P depth r s) :
    Follows P depth (holding tree r) (holding tree s) :=
  @follows_holdingAll _ _ _ _ _ [tree] h

theorem agrees_ite {p : Prop} [Decidable p] {r' : Metered α} {s' : Reader α} {c : Cursor}
    {m : Meter} (yes : Agrees P (r c m) (s c)) (no : Agrees P (r' c m) (s' c)) :
    Agrees P ((if p then r else r') c m) ((if p then s else s') c) := by
  split
  · exact yes
  · exact no

theorem follows_ite {p : Prop} [Decidable p] {r' : Metered α} {s' : Reader α}
    (yes : Follows P depth r s) (no : Follows P depth r' s') :
    Follows P depth (if p then r else r') (if p then s else s') :=
  fun c m hc hm hpeak => agrees_ite (yes c m hc hm hpeak) (no c m hc hm hpeak)

theorem settles_plain (h : s.Safe) : Settles depth (plain s) s := by
  intro c m hc hm hpeak
  dsimp only [plain]
  cases hs : s c with
  | done a d => exact .done (h c a d hc hs) hm hpeak
  | failed => exact .failed hm hpeak

/-- What climbs is set back. -/
theorem settles_restoring (h : Climbs depth r s) : Settles depth (restoring r) s := by
  intro c m hc hm hpeak
  have hrun := h c m hc hm hpeak
  dsimp only [restoring]
  generalize r c m = run at hrun
  generalize s c = outcome at hrun
  cases hrun with
  | done hd _ hpeak => exact .done hd hm hpeak
  | failed _ hpeak => exact .failed hm hpeak

theorem settles_perToken {loop : Nat → Metered α} {loop' : Nat → Reader α}
    (h : ∀ rounds c m, c.ahead.length < rounds → Sealed c.fault c.tokens → m.depth = depth →
      m.peak ≤ maxNesting → Agrees (· = depth) (loop rounds c m) (loop' rounds c)) :
    Settles depth (perToken loop) (perToken loop') :=
  fun c m => h _ c m (Nat.lt_succ_self _)

variable {item : Metered Tree} {item' : Reader Tree}

/-- Each item takes a token, so there are rounds enough. -/
theorem agrees_separated {part : Part} (hitem : Settles depth item item')
    (hreads : Reads part item') (hsolid : part.isSolid) (rounds : Nat) (c : Cursor) (m : Meter)
    (hrounds : c.ahead.length < rounds) (hc : Sealed c.fault c.tokens) (hm : m.depth = depth)
    (hpeak : m.peak ≤ maxNesting) :
    Agrees (· = depth) (separated item rounds c m) (separated item' rounds c) := by
  induction rounds generalizing c m with
  | zero => exact absurd hrounds (Nat.not_lt_zero _)
  | succ rounds ih =>
    refine agrees_bind (hitem c m hc hm hpeak) rfl fun first d m hfirst hd hm hpeak => ?_
    have hless := hreads.length_lt hsolid hc hfirst
    refine @agrees_holdingAll _ _ _ _ [first] _ _ ?_
    refine agrees_bind (settles_plain (safe_eat _) d m hd hm hpeak) rfl
      fun found e m heat he hm hpeak => ?_
    have hle := length_eat_le heat
    cases found with
    | false => exact .done he hm hpeak
    | true =>
      exact agrees_bind (ih e m (by omega) he hm hpeak) rfl fun rest x m _ hx hm hpeak =>
        .done hx hm hpeak

theorem agrees_upTo {closing : TokenKind} {wanted : Wanted} (hitem : Settles depth item item')
    (hreads : Reads .statement item') (rounds : Nat) (c : Cursor) (m : Meter)
    (hrounds : c.ahead.length < rounds) (hc : Sealed c.fault c.tokens) (hm : m.depth = depth)
    (hpeak : m.peak ≤ maxNesting) :
    Agrees (· = depth) (upTo closing wanted item rounds c m)
      (upTo closing wanted item' rounds c) := by
  induction rounds generalizing c m with
  | zero => exact absurd hrounds (Nat.not_lt_zero _)
  | succ rounds ih =>
    refine agrees_bind (settles_plain (safe_isAt _) c m hc hm hpeak) rfl ?_
    rintro closed _ m ⟨⟩ - hm hpeak
    refine agrees_ite (.done hc hm hpeak) ?_
    refine agrees_bind (settles_plain (safe_isAt _) c m hc hm hpeak) rfl ?_
    rintro ended _ m ⟨⟩ - hm hpeak
    refine agrees_ite (settles_plain (safe_missing _) c m hc hm hpeak) ?_
    refine agrees_bind (hitem c m hc hm hpeak) rfl fun first d m hfirst hd hm hpeak => ?_
    have hless := hreads.length_lt rfl hc hfirst
    have hrest := ih d m (by omega) hd hm hpeak
    exact agrees_bind (@agrees_holdingAll _ _ _ _ [first] _ _ hrest) rfl
      fun rest x m _ hx hm hpeak => .done hx hm hpeak

section Statements

variable {statement assignment : Metered Tree} {statement' assignment' : Reader Tree}

theorem settles_block (hs : Settles depth statement statement')
    (hreads : Reads .statement statement') :
    Settles depth (block statement) (block statement') := by
  refine settles_bind (settles_plain (safe_expect _ _)) fun opening => ?_
  refine settles_bind (settles_perToken (agrees_upTo hs hreads)) fun body => ?_
  exact settles_bind (follows_holdingAll (settles_plain safe_advance)) fun closing =>
    settles_pure _

theorem settles_parameterList : Settles depth parameterList parameterList := by
  have hparameter : Settles depth (plain parameter) parameter := settles_plain safe_parameter
  have hclose (opening : Token) (parameters : List Tree) : Settles depth
      (do
        let closing ← holdingAll parameters (plain (Reader.expect .closeParen .closeParen))
        return Tree.branch .paramList (opening.span.to closing.span) parameters)
      (do
        let closing ← Reader.holdingAll parameters (Reader.expect .closeParen .closeParen)
        return Tree.branch .paramList (opening.span.to closing.span) parameters) :=
    settles_bind (follows_holdingAll (settles_plain (safe_expect _ _))) fun _ => settles_pure _
  refine settles_bind (settles_plain (safe_expect _ _)) fun opening => ?_
  refine settles_bind (settles_plain (safe_isAt _)) fun empty => follows_ite ?_ ?_
  · exact settles_bind (settles_pure []) (hclose opening)
  · exact settles_bind (settles_perToken (agrees_separated hparameter reads_parameter rfl))
      (hclose opening)

theorem settles_function (hs : Settles depth statement statement')
    (hreads : Reads .statement statement') :
    Settles depth (function statement) (function statement') := by
  refine settles_bind (settles_plain safe_advance) fun keyword => ?_
  refine settles_bind (settles_plain (safe_functionName _)) fun name => follows_holding ?_
  refine settles_bind settles_parameterList fun parameters => ?_
  exact settles_bind (follows_holding (settles_block hs hreads)) fun body => settles_pure _

theorem settles_declarator (ha : Settles depth assignment assignment') :
    Settles depth (declarator assignment) (declarator assignment') := by
  refine settles_bind (settles_plain (safe_expect _ _)) fun token => follows_holding ?_
  refine settles_bind (settles_plain (safe_eat _)) fun found => follows_ite ?_ (settles_pure _)
  exact settles_bind ha fun value => settles_pure _

theorem settles_varStatement (ha : Settles depth assignment assignment')
    (hreads : Reads .expression assignment') :
    Settles depth (varStatement assignment) (varStatement assignment') := by
  refine settles_bind (settles_plain safe_advance) fun keyword => ?_
  refine settles_bind (settles_perToken (agrees_separated (settles_declarator ha)
    (reads_declarator hreads) rfl)) fun names => ?_
  exact settles_bind (follows_holdingAll (settles_plain (safe_finish _))) fun span =>
    settles_pure _

theorem settles_branch (hs : Settles depth statement statement') :
    Settles depth (branch statement) (branch statement') :=
  settles_bind hs fun _ => settles_pure _

theorem settles_ifStatement (hs : Settles depth statement statement')
    (ha : Settles depth assignment assignment') :
    Settles depth (ifStatement statement assignment)
      (ifStatement statement' assignment') := by
  refine settles_bind (settles_plain safe_advance) fun keyword => ?_
  refine settles_bind (settles_plain (safe_expect _ _)) fun opening => ?_
  refine settles_bind ha fun condition => follows_holding ?_
  refine settles_bind (settles_plain (safe_expect _ _)) fun closing => ?_
  refine settles_bind (settles_branch hs) fun first => follows_holding ?_
  refine settles_bind (settles_plain (safe_eat _)) fun found => follows_ite ?_ (settles_pure _)
  exact settles_bind (settles_branch hs) fun second => settles_pure _

theorem settles_returnStatement (ha : Settles depth assignment assignment') :
    Settles depth (returnStatement assignment) (returnStatement assignment') := by
  refine settles_bind (settles_plain safe_advance) fun keyword => ?_
  refine settles_bind (settles_plain safe_current) fun token => follows_ite ?_ ?_
  · exact settles_bind (settles_plain (safe_finish _)) fun span => settles_pure _
  · refine settles_bind ha fun value => ?_
    exact settles_bind (follows_holding (settles_plain (safe_finish _))) fun span =>
      settles_pure _

theorem settles_labelled (hs : Settles depth statement statement') :
    Settles depth (labelled statement) (labelled statement') := by
  refine settles_bind (settles_plain safe_advance) fun token => follows_holding ?_
  refine settles_bind (settles_plain (safe_expect _ _)) fun colon => ?_
  exact settles_bind hs fun body => settles_pure _

theorem settles_exprStatement (ha : Settles depth assignment assignment') :
    Settles depth (exprStatement assignment) (exprStatement assignment') := by
  refine settles_bind ha fun value => ?_
  exact settles_bind (follows_holding (settles_plain (safe_finish _))) fun span =>
    settles_pure _

theorem settles_statementBody (hs : Settles depth statement statement')
    (ha : Settles depth assignment assignment') (hreads : Reads .statement statement')
    (hreads' : Reads .expression assignment') :
    Settles depth (statementBody statement assignment)
      (statementBody statement' assignment') := by
  refine settles_bind (settles_plain safe_current) fun token => ?_
  cases token.kind with
  | var => exact settles_varStatement ha hreads'
  | function => exact settles_function hs hreads
  | openBrace => exact settles_block hs hreads
  | ifWord => exact settles_ifStatement hs ha
  | ret => exact settles_returnStatement ha
  | breakWord | continueWord => exact settles_plain (safe_jumpStatement _)
  | semicolon => exact settles_bind (settles_plain safe_advance) fun token => settles_pure _
  | identifier =>
    refine settles_bind (settles_plain safe_following) fun next => follows_ite ?_ ?_
    · exact settles_labelled hs
    · exact settles_exprStatement ha
  | _ => exact settles_exprStatement ha

theorem settles_primary (hs : Settles depth statement statement')
    (ha : Settles depth assignment assignment') (hreads : Reads .statement statement') :
    Settles depth (primary statement assignment) (primary statement' assignment') := by
  refine settles_bind (settles_plain safe_current) fun token => ?_
  cases token.kind.leafKind with
  | some kind => exact settles_bind (settles_plain safe_advance) fun token => settles_pure _
  | none =>
    cases token.kind with
    | function => exact settles_function hs hreads
    | openParen =>
      refine settles_bind (settles_plain safe_advance) fun opening => ?_
      refine settles_bind ha fun inner => ?_
      exact settles_bind (follows_holding (settles_plain (safe_expect _ _))) fun closing =>
        settles_pure _
    | _ => exact settles_plain (safe_missing _)

theorem settles_postfixStep (left : Tree) (ha : Settles depth assignment assignment')
    (hreads : Reads .expression assignment') :
    Settles depth (postfixStep assignment left) (postfixStep assignment' left) := by
  refine settles_bind (settles_plain (safe_eat _)) fun found => follows_ite ?_ ?_
  · exact settles_bind (settles_plain (safe_expect _ _)) fun token => settles_pure _
  · have harguments : Settles depth (arguments assignment) (arguments assignment') :=
      settles_bind (settles_plain (safe_isAt _)) fun empty => follows_ite (settles_pure _)
        (settles_perToken (agrees_separated ha hreads rfl))
    refine settles_bind (settles_plain safe_advance) fun opening => ?_
    refine settles_bind harguments fun arguments => ?_
    exact settles_bind (follows_holdingAll (settles_plain (safe_expect _ _))) fun closing =>
      settles_pure _

end Statements

/-- What stands behind a counted entry does what the productions of a level do. -/
structure Mirrors (depth : Nat) (entered : Productions Metered) (level : Level) : Prop where
  sound : level.Sound
  statement : Settles depth entered.statement level.statement
  assignment : Settles depth entered.assignment level.assignment
  unary : Settles depth entered.unary level.unary
  binaryLink (floor : Nat) (left : Tree) :
    Climbs depth (entered.binaryLink floor left) (level.binaryLink floor left)
  postfixLink (left : Tree) : Climbs depth (entered.postfixLink left) (level.postfixLink left)

/-- The counter lets through where a level is left. -/
inductive Entry (depth : Nat) : Option (Productions Metered) → Option Level → Prop
  | full {inner : Option (Productions Metered)} : depth = maxNesting → Entry depth inner none
  | free {entered : Productions Metered} {level : Level} : depth < maxNesting →
      Mirrors (depth + 1) entered level → Entry depth (some entered) (some level)

theorem Entry.sound {inner : Option (Productions Metered)} {inner' : Option Level}
    (h : Entry depth inner inner') : ∀ level ∈ inner', level.Sound := by
  cases h with
  | full => nofun
  | free _ hmirrors =>
    rintro _ ⟨⟩
    exact hmirrors.sound

/-- The counter refuses where no level is left, and is one higher behind an entry. -/
theorem climbs_entering {inner : Option (Productions Metered)} {inner' : Option Level}
    {waiting : List Tree} {production : Productions Metered → Metered α}
    {production' : Level → Reader α} (h : Entry depth inner inner')
    (hproduction : ∀ entered level, Mirrors (depth + 1) entered level →
      Climbs (depth + 1) (production entered) (production' level)) :
    Climbs depth (entering waiting inner production)
      (Reader.entering waiting inner' production') := by
  intro c m hc hm hpeak
  subst hm
  cases h with
  | full hdepth =>
    have hrefused : enter waiting c m = .failed ⟨.nestedTooDeeply, c.current.span⟩ waiting m :=
      if_pos (Nat.le_of_eq hdepth.symm)
    dsimp only [entering, bind]
    rw [hrefused]
    dsimp only [Reader.entering, Reader.holdingAll, Reader.fail]
    rw [List.append_nil]
    exact .failed trivial hpeak
  | free hdepth hmirrors =>
    have hraised : enter waiting c m = .done () c ⟨m.depth + 1, max m.peak (m.depth + 1)⟩ :=
      if_neg (Nat.not_le.mpr hdepth)
    dsimp only [entering, bind]
    rw [hraised]
    exact hproduction _ _ hmirrors c _ hc rfl (Nat.max_le.mpr ⟨hpeak, hdepth⟩)

section Expressions

variable {inner : Option (Productions Metered)} {inner' : Option Level}

theorem settles_nested {production : Productions Metered → Metered α}
    {production' : Level → Reader α} (h : Entry depth inner inner')
    (hproduction : ∀ entered level, Mirrors (depth + 1) entered level →
      Settles (depth + 1) (production entered) (production' level)) :
    Settles depth (nested inner production) (nested inner' production') :=
  settles_restoring (climbs_entering h fun entered level hmirrors =>
    (hproduction entered level hmirrors).climbs)

theorem settles_statement (h : Entry depth inner inner') :
    Settles depth (statement inner) (statement inner') :=
  settles_nested h fun _ _ hmirrors => hmirrors.statement

theorem settles_assignment (h : Entry depth inner inner') :
    Settles depth (assignment inner) (assignment inner') :=
  settles_nested h fun _ _ hmirrors => hmirrors.assignment

theorem climbs_postfixChain (left : Tree) (h : Entry depth inner inner') :
    Climbs depth (postfixChain inner left) (postfixChain inner' left) := by
  refine follows_bind (settles_plain safe_current) trivial fun token => follows_ite ?_ ?_
  · exact climbs_entering h fun _ _ hmirrors => hmirrors.postfixLink left
  · exact (settles_pure left).climbs

theorem climbs_binaryChain (floor : Nat) (left : Tree) (h : Entry depth inner inner') :
    Climbs depth (binaryChain inner floor left) (binaryChain inner' floor left) := by
  refine follows_bind (settles_plain safe_current) trivial fun token => follows_ite ?_ ?_
  · exact climbs_entering h fun _ _ hmirrors => hmirrors.binaryLink floor left
  · exact (settles_pure left).climbs

/-- What the chain of members and calls raised is set back behind it. -/
theorem settles_members (h : Entry depth inner inner') :
    Settles depth (members inner) (members inner') :=
  settles_restoring (follows_bind (settles_primary (settles_statement h) (settles_assignment h)
    (reads_statement h.sound)) trivial fun first => climbs_postfixChain first h)

theorem settles_unary (h : Entry depth inner inner') :
    Settles depth (unary inner) (unary inner') := by
  refine settles_bind (settles_plain safe_current) fun token => follows_ite ?_ (settles_members h)
  refine settles_bind (settles_plain safe_advance) fun op => ?_
  exact settles_bind (settles_nested h fun _ _ hmirrors => hmirrors.unary) fun operand =>
    settles_pure _

/-- What the chain of operators raised is set back behind it. -/
theorem settles_binary (floor : Nat) (h : Entry depth inner inner') :
    Settles depth (binary inner floor) (binary inner' floor) :=
  settles_restoring (follows_bind (settles_unary h) trivial fun left =>
    climbs_binaryChain floor left h)

theorem settles_binaryStep (left : Tree) (h : Entry depth inner inner') :
    Settles depth (binaryStep inner left) (binaryStep inner' left) := by
  refine settles_bind (settles_plain safe_advance) fun op => ?_
  exact settles_bind (settles_binary _ h) fun right => settles_pure _

theorem settles_assignmentBody (h : Entry depth inner inner') :
    Settles depth (assignmentBody inner) (assignmentBody inner') := by
  refine settles_bind (settles_binary 0 h) fun target => ?_
  refine settles_bind (settles_plain (safe_isAt _)) fun found => follows_ite ?_ (settles_pure _)
  refine follows_holding (follows_ite ?_ (settles_plain (safe_failAt _ _)))
  refine settles_bind (settles_plain safe_advance) fun equals => ?_
  exact settles_bind (settles_assignment h) fun value => settles_pure _

theorem mirrors_levelAbove (h : Entry depth inner inner') :
    Mirrors depth (levelAbove inner) (levelAbove inner') where
  sound := levelAbove_sound h.sound
  statement := settles_statementBody (settles_statement h) (settles_assignment h)
    (reads_statement h.sound) (reads_assignment h.sound)
  assignment := settles_assignmentBody h
  unary := settles_unary h
  binaryLink floor left := follows_bind (follows_holding (settles_binaryStep left h)) trivial
    fun link => climbs_binaryChain floor link h
  postfixLink left := follows_bind (follows_holding (settles_postfixStep left
    (settles_assignment h) (reads_assignment h.sound))) trivial fun link =>
      climbs_postfixChain link h

/-- At every depth the counter lets through what the levels that are left do, whatever number of
entries beyond that may be gone through. -/
theorem entry_within {left : Nat} (hdepth : depth + left = maxNesting) {entries : Nat}
    (hentries : left ≤ entries) : Entry depth (within entries) (below left) := by
  induction left generalizing depth entries with
  | zero => exact .full hdepth
  | succ left ih =>
    cases entries with
    | zero => exact absurd hentries (Nat.not_succ_le_zero _)
    | succ entries =>
      exact .free (by omega)
        (mirrors_levelAbove (ih (by omega) (Nat.le_of_succ_le_succ hentries)))

theorem settles_script {entries : Nat} (hentries : maxNesting ≤ entries) :
    Settles 0 (script entries) Script.script := by
  have hentry : Entry 0 (within entries) (below maxNesting) :=
    entry_within (Nat.zero_add _) hentries
  refine settles_bind (settles_plain safe_current) fun first => ?_
  refine settles_bind (settles_perToken (agrees_upTo (settles_statement hentry)
    (reads_statement hentry.sound))) fun body => ?_
  exact settles_bind (settles_plain safe_current) fun last => settles_pure _

end Expressions

/-- Started at a depth, on tokens that go on up to the end or to a fault, a reader comes to an end.
The counter is back at the depth then and was never above its bound, and an answer takes a token. -/
def Bounded (depth : Nat) (r : Metered Tree) : Prop :=
  ∀ c peak, Sealed c.fault c.tokens → peak ≤ maxNesting → ∃ after, after ≤ maxNesting ∧
    ((∃ tree rest used, r c ⟨depth, peak⟩ = .done tree rest ⟨depth, after⟩ ∧ used ≠ [] ∧
        c.tokens = used ++ rest.tokens ∧ rest.fault = c.fault) ∨
      ∃ error loose, r c ⟨depth, peak⟩ = .failed error loose ⟨depth, after⟩)

theorem Settles.bounded {r : Metered Tree} {s : Reader Tree} {part : Part}
    (h : Settles depth r s) (hreads : Reads part s) (hsolid : part.isSolid) : Bounded depth r := by
  intro c peak hc hpeak
  have hrun := h c ⟨depth, peak⟩ hc rfl hpeak
  generalize r c ⟨depth, peak⟩ = run at hrun
  generalize houtcome : s c = outcome at hrun
  cases hrun with
  | @done tree d m hd hdepth hafter =>
    obtain ⟨used, htokens, hfault, hused⟩ :=
      hreads _ _ c hc rfl (Nat.lt_succ_self _) tree d houtcome
    obtain ⟨level, after⟩ := m
    obtain rfl : level = depth := hdepth
    exact ⟨after, hafter, .inl ⟨tree, d, used, rfl, hused.ne_nil hsolid, htokens, hfault⟩⟩
  | @failed error loose m hdepth hafter =>
    obtain ⟨level, after⟩ := m
    obtain rfl : level = depth := hdepth
    exact ⟨after, hafter, .inr ⟨error, loose, rfl⟩⟩

theorem reads_members {inner : Option Level} (h : ∀ level ∈ inner, level.Sound) :
    Reads .members (members inner) :=
  fun _ _ => takes_bind (takes_primary (reads_statement h) (reads_assignment h))
    fun _ _ _ hfirst => takes_postfixChain h hfirst

/-- At each depth, if no fewer counted entries may be gone through than the counter has left,
statements, expressions and operands come to an end with the counter as it was, and an answer takes
a token: the entries never run out, so no chain of calls goes through more of them than there are
levels. The tokens of every script come to an end, and so does its run, which is the one of the
grammar. -/
theorem parse_bounded :
    (∀ depth left entries, depth + left = maxNesting → left ≤ entries →
      Bounded depth (statement (within entries)) ∧ Bounded depth (assignment (within entries)) ∧
      Bounded depth (unary (within entries)) ∧ Bounded depth (members (within entries)) ∧
      ∀ floor, Bounded depth (binary (within entries) floor)) ∧
    ∀ source entries, maxNesting ≤ entries →
      Scans ⟨0, source.toList⟩ (tokenize source) ∧ ∃ peak, peak ≤ maxNesting ∧
        parse entries source = some (Script.parse source, ⟨0, peak⟩) := by
  constructor
  · intro depth left entries hdepth hentries
    have hentry := entry_within hdepth hentries
    have hsound := below_sound left
    exact ⟨(settles_statement hentry).bounded (reads_statement hsound) rfl,
      (settles_assignment hentry).bounded (reads_assignment hsound) rfl,
      (settles_unary hentry).bounded (reads_unary hsound) rfl,
      (settles_members hentry).bounded (reads_members hsound) rfl,
      fun floor => (settles_binary floor hentry).bounded (reads_binary hsound floor) rfl⟩
  · intro source entries hentries
    refine ⟨scans_scanUpTo _ (Nat.lt_succ_self _), ?_⟩
    have hsealed := sealed_tokenize source
    rw [parse, Script.parse]
    generalize tokenize source = scanned at hsealed
    obtain ⟨tokens, fault⟩ := scanned
    cases tokens with
    | nil => cases fault <;> exact ⟨0, Nat.zero_le _, rfl⟩
    | cons first ahead =>
      have hrun := settles_script hentries ⟨first, ahead, fault⟩ ⟨0, 0⟩ hsealed rfl (Nat.zero_le _)
      dsimp only
      generalize script entries ⟨first, ahead, fault⟩ ⟨0, 0⟩ = run at hrun
      generalize Script.script ⟨first, ahead, fault⟩ = outcome at hrun
      cases hrun with
      | @done _ _ m _ hdepth hpeak | @failed _ _ m hdepth hpeak =>
        obtain ⟨level, peak⟩ := m
        obtain rfl : level = 0 := hdepth
        exact ⟨peak, hpeak, rfl⟩

/-- A name as a statement with two levels left, and a sum of names in parentheses as a script. -/
theorem parse_bounded_sum :
    254 + 2 = maxNesting ∧ Sealed none [⟨.identifier, "a", ⟨0, 1⟩⟩, ⟨.endOfInput, "", ⟨1, 1⟩⟩] ∧
      (∃ after, after ≤ maxNesting ∧
        ((∃ tree rest used, statement (within 2)
              ⟨⟨.identifier, "a", ⟨0, 1⟩⟩, [⟨.endOfInput, "", ⟨1, 1⟩⟩], none⟩ ⟨254, 254⟩ =
              .done tree rest ⟨254, after⟩ ∧ used ≠ [] ∧
            [⟨.identifier, "a", ⟨0, 1⟩⟩, ⟨.endOfInput, "", ⟨1, 1⟩⟩] = used ++ rest.tokens ∧
            rest.fault = none) ∨
          ∃ error loose, statement (within 2)
            ⟨⟨.identifier, "a", ⟨0, 1⟩⟩, [⟨.endOfInput, "", ⟨1, 1⟩⟩], none⟩ ⟨254, 254⟩ =
              .failed error loose ⟨254, after⟩)) ∧
      maxNesting ≤ 300 ∧ ∃ peak, peak ≤ maxNesting ∧
        parse 300 "(a + b);" = some (Script.parse "(a + b);", ⟨0, peak⟩) := by
  have hsealed : Sealed none [⟨.identifier, "a", ⟨0, 1⟩⟩, ⟨.endOfInput, "", ⟨1, 1⟩⟩] := by
    simp [Sealed]
  exact ⟨rfl, hsealed,
    (parse_bounded.1 254 2 2 rfl (Nat.le_refl _)).1 _ 254 hsealed (by decide), by decide,
    (parse_bounded.2 "(a + b);" 300 (by decide)).2⟩

end Metered

end RefCheck.Script
