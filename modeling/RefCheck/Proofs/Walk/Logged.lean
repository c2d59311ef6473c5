import RefCheck.Proofs.Script.Postorder
import RefCheck.Proofs.Walk.Simulation

/-!
# What a walk writes down

Any visitor can be made to write down its visits, and does the same as before then. A log is a
trail: each child list is read when the walk comes to its node, the nodes in it are walked in order,
and then the node is visited. A walk that stops has logged the visit that stopped it as the last
one.
-/

namespace RefCheck

open RefCheck.Script

variable {ε σ : Type}

/-- A visit: where it was, what the visitor found there, and what came of it. -/
structure Visited (ε σ : Type) where
  place : Place
  before : WalkState σ
  outcome : Progress ε (WalkState σ)

/-- The node that was visited. -/
def Visited.node (v : Visited ε σ) : NodeId := v.place.node

/-- The nodes right after the visit. -/
def Visited.after (v : Visited ε σ) : NodeStore := v.outcome.state.program.store

/-- A state without what was written down in it. -/
def WalkState.plain {α : Type} (s : WalkState (σ × α)) : WalkState σ :=
  ⟨s.program, s.scopes, s.own.1⟩

/-- Does what the visitor does, and writes every visit down. -/
def Visitor.logged (visit : Visitor ε σ) : Visitor ε (σ × List (Visited ε σ)) := fun place s =>
  let outcome := visit place s.plain
  let log := s.own.2 ++ [⟨place, s.plain, outcome⟩]
  match outcome with
  | .on t => .on ⟨t.program, t.scopes, (t.own, log)⟩
  | .stopped e t => .stopped e ⟨t.program, t.scopes, (t.own, log)⟩

theorem Visitor.logged_state (visit : Visitor ε σ) (place : Place)
    (s : WalkState (σ × List (Visited ε σ))) :
    let v : Visited ε σ := ⟨place, s.plain, visit place s.plain⟩
    (visit.logged place s).state =
      ⟨v.outcome.state.program, v.outcome.state.scopes, (v.outcome.state.own, s.own.2 ++ [v])⟩ := by
  simp only [logged]
  cases visit place s.plain <;> rfl

theorem Progress.Follows.each {α β ι : Type} {R : β → α → Prop} {step : ι → β → Progress ε β}
    {step' : ι → α → Progress ε α} {items : List ι} {b : β} {a : α}
    (h : ∀ item b a, R b a → (step item b).Follows R (step' item a)) (hR : R b a) :
    (Progress.each step items b).Follows R (Progress.each step' items a) := by
  induction items generalizing b a with
  | nil => exact hR
  | cons item rest ih => exact (h item b a hR).andThen (fun _ _ h => h) fun _ _ h => ih h

theorem Progress.Follows.error {α β : Type} {R : β → α → Prop} {x : Progress ε β}
    {y : Progress ε α} (h : x.Follows R y) : x.error? = y.error? := by
  cases x with
  | on b =>
    cases y with
    | on a => rfl
    | stopped e a => exact h.elim
  | stopped e b =>
    cases y with
    | on a => exact h.elim
    | stopped e' a => exact congrArg some h.1

theorem Progress.Follows.state {α β : Type} {R : β → α → Prop} {x : Progress ε β}
    {y : Progress ε α} (h : x.Follows R y) : R x.state y.state := by
  cases x with
  | on b =>
    cases y with
    | on a => exact h
    | stopped e a => exact h.elim
  | stopped e b =>
    cases y with
    | on a => exact h.elim
    | stopped e' a => exact h.2

/-- Logged walks do what the plain ones do. -/
theorem Visitor.logged_follows (visit : Visitor ε σ) (depth : Nat) (id parent : Option NodeId)
    (input : Option InputId) (scopes : List ScopeId) (s : WalkState (σ × List (Visited ε σ))) :
    (Walk.subtree visit depth id parent input scopes s.plain).Follows
      (fun t logged => logged.plain = t)
      (Walk.subtree visit.logged depth id parent input scopes s) := by
  induction depth generalizing id parent input scopes s with
  | zero => exact rfl
  | succ depth ih =>
    have hwalk : ∀ id parent input scopes t (u : WalkState (σ × List (Visited ε σ))),
        u.plain = t → (Walk.subtree visit depth id parent input scopes t).Follows
          (fun t logged => logged.plain = t)
          (Walk.subtree visit.logged depth id parent input scopes u) := by
      rintro id parent input scopes _ u rfl
      exact ih id parent input scopes u
    have hsame : s.plain.program = s.program := rfl
    cases id with
    | none => exact rfl
    | some n =>
      cases hnode : s.program.store.get? (some n) with
      | none =>
        simp only [Walk.subtree, hsame, hnode]
        exact rfl
      | some node =>
        simp only [Walk.subtree, hsame, hnode]
        refine Progress.Follows.andThen (R := fun t logged => logged.plain = t) ?_
          (fun _ _ h => h) ?_
        · split
          · exact rfl
          · next name rest _ _ =>
            refine Progress.Follows.andThen (R := fun t logged => logged.plain = t) ?_
              (fun _ _ h => h) ?_
            · cases parent.isSome && s.program.store.isFunctionExpression (some n) with
              | true => exact rfl
              | false => exact ih name (some n) _ scopes s
            · rintro _ u rfl
              exact .each (fun child => hwalk child _ _ _) rfl
          · exact .each (fun child => hwalk child _ _ _) rfl
        · rintro _ u rfl
          simp only [logged]
          cases visit _ u.plain with
          | on t => exact rfl
          | stopped e t => exact ⟨rfl, rfl⟩

/-- A visit to a node by the visitor, in a state with these nodes. -/
structure Visited.Of (visit : Visitor ε σ) (n : NodeId) (s : NodeStore) (v : Visited ε σ) :
    Prop where
  node : v.node = n
  store : v.before.program.store = s
  outcome : v.outcome = visit v.place v.before

/-- The log of a walk through some nodes and what is below them, at most so deep: which visits there
were, what the nodes are like at the end, and at which error the walk stopped. -/
inductive Trail (visit : Visitor ε σ) :
    Nat → List (Option NodeId) → NodeStore → List (Visited ε σ) → NodeStore → Option ε → Prop
  | done {depth s} : Trail visit depth [] s [] s none
  | skip {depth id rest s log t e} : s.get? id = none ∨ depth = 0 →
      Trail visit depth rest s log t e → Trail visit depth (id :: rest) s log t e
  | visit {depth n rest s below u v log t e} : (s.get? (some n)).isSome →
      Trail visit depth (s.children (some n)) s below u none → v.Of visit n u →
      v.outcome.error? = none → Trail visit (depth + 1) rest v.after log t e →
      Trail visit (depth + 1) (some n :: rest) s (below ++ v :: log) t e
  | stop {depth n rest s below u v e} : (s.get? (some n)).isSome →
      Trail visit depth (s.children (some n)) s below u none → v.Of visit n u →
      v.outcome.error? = some e →
      Trail visit (depth + 1) (some n :: rest) s (below ++ [v]) v.after (some e)
  | inside {depth n rest s log t e} : (s.get? (some n)).isSome →
      Trail visit depth (s.children (some n)) s log t (some e) →
      Trail visit (depth + 1) (some n :: rest) s log t (some e)

/-- All visits went on, up to the one that stopped the walk. -/
def EndsAt : Option ε → List (Visited ε σ) → Prop
  | none, log => ∀ v ∈ log, v.outcome.error? = none
  | some e, log => ∃ front v, log = front ++ [v] ∧ v.outcome.error? = some e ∧
      ∀ w ∈ front, w.outcome.error? = none

namespace Trail

variable {visit : Visitor ε σ} {depth : Nat} {ids rest : List (Option NodeId)} {s u t : NodeStore}
  {log more : List (Visited ε σ)} {e : Option ε} {error : ε}

theorem append (h : Trail visit depth ids s log u none)
    (hrest : Trail visit depth rest u more t e) :
    Trail visit depth (ids ++ rest) s (log ++ more) t e := by
  generalize hon : (none : Option ε) = stopped at h
  induction h with
  | done => exact hrest
  | skip habsent _ ih => exact .skip habsent (ih hrest hon)
  | visit hnode hbelow hof herror _ _ ih =>
    rw [List.append_assoc]
    exact .visit hnode hbelow hof herror (ih hrest hon)
  | stop => cases hon
  | inside => cases hon

theorem append_stopped (h : Trail visit depth ids s log t (some error)) :
    Trail visit depth (ids ++ rest) s log t (some error) := by
  generalize hon : some error = stopped at h
  induction h with
  | done => cases hon
  | skip habsent _ ih => exact .skip habsent (ih hon)
  | visit hnode hbelow hof herror _ _ ih => exact .visit hnode hbelow hof herror (ih hon)
  | stop hnode hbelow hof herror => exact .stop hnode hbelow hof herror
  | inside hnode hbelow => exact .inside hnode hbelow

theorem endsAt (h : Trail visit depth ids s log t e) : EndsAt e log := by
  induction h with
  | done => exact fun _ hv => nomatch hv
  | skip _ _ ih => exact ih
  | @visit _ _ _ _ below _ v log _ e _ _ _ herror _ hbelow ih =>
    cases e with
    | none =>
      intro w hw
      rcases List.mem_append.mp hw with hw | hw
      · exact hbelow w hw
      · rcases List.mem_cons.mp hw with rfl | hw
        · exact herror
        · exact ih w hw
    | some e =>
      obtain ⟨front, last, rfl, hlast, hfront⟩ := ih
      refine ⟨below ++ v :: front, last, by simp, hlast, ?_⟩
      intro w hw
      rcases List.mem_append.mp hw with hw | hw
      · exact hbelow w hw
      · rcases List.mem_cons.mp hw with rfl | hw
        · exact herror
        · exact hfront w hw
  | @stop _ _ _ _ below _ v _ _ _ _ herror hbelow => exact ⟨below, v, rfl, herror, hbelow⟩
  | inside _ _ ih => exact ih

/-- Where a node is, something is visited. -/
theorem ne_nil {n : NodeId} (h : Trail visit (depth + 1) (some n :: rest) s log t e)
    (hn : (s.get? (some n)).isSome) : log ≠ [] := by
  cases h with
  | skip habsent _ =>
    rcases habsent with habsent | hzero
    · rw [habsent] at hn
      cases hn
    · cases hzero
  | visit => simp
  | stop => simp
  | inside _ hbelow =>
    obtain ⟨front, v, rfl, -⟩ := hbelow.endsAt
    simp

theorem above_of_head {n : NodeId} {below : List (Visited ε σ)} {v w : Visited ε σ}
    (hbelow : ∀ x ∈ below.head?, ∃ c, some c ∈ s.children (some n) ∧ s.Above c x.node)
    (hw : w.node = n) (hv : v ∈ (below ++ w :: more).head?) : s.Above n v.node := by
  cases below with
  | nil =>
    obtain rfl : w = v := Option.some.inj hv
    exact hw ▸ .refl _
  | cons x below =>
    obtain rfl : x = v := Option.some.inj hv
    obtain ⟨c, hc, habove⟩ := hbelow x rfl
    exact .head hc habove

/-- The first visit is to a node at or below one of those that are walked. -/
theorem exists_above_head (h : Trail visit depth ids s log t e) :
    ∀ v ∈ log.head?, ∃ n, some n ∈ ids ∧ s.Above n v.node := by
  induction h with
  | done => exact nofun
  | skip _ _ ih =>
    intro v hv
    obtain ⟨n, hn, habove⟩ := ih v hv
    exact ⟨n, List.mem_cons_of_mem _ hn, habove⟩
  | visit _ _ hof _ _ ihbelow _ =>
    exact fun v hv => ⟨_, List.mem_cons_self, above_of_head ihbelow hof.node hv⟩
  | stop _ _ hof _ ihbelow =>
    exact fun v hv => ⟨_, List.mem_cons_self, above_of_head ihbelow hof.node hv⟩
  | inside _ _ ih =>
    intro v hv
    obtain ⟨c, hc, habove⟩ := ih v hv
    exact ⟨_, List.mem_cons_self, .head hc habove⟩

/-- It is at or below the first one, if that is there. -/
theorem above_head {n : NodeId} (h : Trail visit (depth + 1) (some n :: rest) s log t e)
    (hn : (s.get? (some n)).isSome) : ∀ v ∈ log.head?, s.Above n v.node := by
  intro v hv
  cases h with
  | skip habsent _ =>
    rcases habsent with habsent | hzero
    · rw [habsent] at hn
      cases hn
    · cases hzero
  | visit _ hbelow hof => exact above_of_head hbelow.exists_above_head hof.node hv
  | stop _ hbelow hof => exact above_of_head hbelow.exists_above_head hof.node hv
  | inside _ hbelow =>
    obtain ⟨c, hc, habove⟩ := hbelow.exists_above_head v hv
    exact .head hc habove

/-- The visitor was asked at each visit. -/
theorem outcome (h : Trail visit depth ids s log t e) :
    ∀ v ∈ log, v.outcome = visit v.place v.before := by
  induction h with
  | done => exact List.forall_mem_nil _
  | skip _ _ ih => exact ih
  | visit _ _ hof _ _ hbelow hrest =>
    exact List.forall_mem_append.mpr ⟨hbelow, List.forall_mem_cons.mpr ⟨hof.outcome, hrest⟩⟩
  | stop _ _ hof _ hbelow =>
    exact List.forall_mem_append.mpr ⟨hbelow, List.forall_mem_singleton.mpr hof.outcome⟩
  | inside _ _ ih => exact ih

end Trail

/-- A walk goes from a state through some nodes, and has logged its trail. -/
def Logs (visit : Visitor ε σ) (depth : Nat) (ids : List (Option NodeId))
    (s : WalkState (σ × List (Visited ε σ)))
    (walk : Progress ε (WalkState (σ × List (Visited ε σ)))) : Prop :=
  ∃ log, walk.state.own.2 = s.own.2 ++ log ∧
    Trail visit depth ids s.program.store log walk.state.program.store walk.error?

namespace Logs

variable {visit : Visitor ε σ} {depth : Nat} {ids rest : List (Option NodeId)}
  {s : WalkState (σ × List (Visited ε σ))} {walk : Progress ε (WalkState (σ × List (Visited ε σ)))}

theorem refl (visit : Visitor ε σ) (depth : Nat) (s : WalkState (σ × List (Visited ε σ))) :
    Logs visit depth [] s (.on s) := ⟨[], (List.append_nil _).symm, .done⟩

theorem andThen {next : WalkState (σ × List (Visited ε σ)) → Progress ε _}
    (h : Logs visit depth ids s walk) (hnext : ∀ t, Logs visit depth rest t (next t)) :
    Logs visit depth (ids ++ rest) s (walk.andThen next) := by
  obtain ⟨log, hlog, htrail⟩ := h
  cases walk with
  | on t =>
    obtain ⟨more, hmore, hrest⟩ := hnext t
    refine ⟨log ++ more, ?_, htrail.append hrest⟩
    rw [← List.append_assoc, ← hlog]
    exact hmore
  | stopped e t => exact ⟨log, hlog, htrail.append_stopped⟩

theorem each {step : Option NodeId → WalkState (σ × List (Visited ε σ)) → Progress ε _}
    (h : ∀ id t, Logs visit depth [id] t (step id t)) (ids : List (Option NodeId))
    (s : WalkState (σ × List (Visited ε σ))) :
    Logs visit depth ids s (Progress.each step ids s) := by
  induction ids generalizing s with
  | nil => exact refl visit depth s
  | cons id rest ih => exact (h id s).andThen ih

theorem node {n : NodeId} (hnode : (s.program.store.get? (some n)).isSome)
    (h : Logs visit depth (s.program.store.children (some n)) s walk) (place : Place)
    (hplace : place.node = n) :
    Logs visit (depth + 1) [some n] s (walk.andThen (visit.logged place)) := by
  obtain ⟨log, hlog, htrail⟩ := h
  cases walk with
  | stopped e t => exact ⟨log, hlog, .inside hnode htrail⟩
  | on t =>
    let v : Visited ε σ := ⟨place, t.plain, visit place t.plain⟩
    have hof : v.Of visit n t.program.store := ⟨hplace, rfl, rfl⟩
    have hvisit : visit.logged place t = match v.outcome with
        | .on u => .on ⟨u.program, u.scopes, (u.own, t.own.2 ++ [v])⟩
        | .stopped e u => .stopped e ⟨u.program, u.scopes, (u.own, t.own.2 ++ [v])⟩ := rfl
    refine ⟨log ++ [v], ?_, ?_⟩
    · rw [Progress.on_andThen, hvisit, ← List.append_assoc, ← hlog]
      cases v.outcome <;> rfl
    · rw [Progress.on_andThen, hvisit]
      cases houtcome : v.outcome with
      | on u =>
        have herror : v.outcome.error? = none := by rw [houtcome]; rfl
        have hafter : v.after = u.program.store := by rw [Visited.after, houtcome]; rfl
        have hdone : Trail visit (depth + 1) [some n] s.program.store (log ++ [v]) v.after none :=
          .visit hnode htrail hof herror .done
        rw [hafter] at hdone
        exact hdone
      | stopped e u =>
        have herror : v.outcome.error? = some e := by rw [houtcome]; rfl
        have hafter : v.after = u.program.store := by rw [Visited.after, houtcome]; rfl
        have hstop : Trail visit (depth + 1) [some n] s.program.store (log ++ [v]) v.after
            (some e) :=
          .stop hnode htrail hof herror
        rw [hafter] at hstop
        exact hstop

end Logs

/-- Every walk logs its trail. -/
theorem Visitor.logs (visit : Visitor ε σ) (depth : Nat) (id parent : Option NodeId)
    (input : Option InputId) (scopes : List ScopeId) (s : WalkState (σ × List (Visited ε σ))) :
    Logs visit depth [id] s (Walk.subtree visit.logged depth id parent input scopes s) := by
  induction depth generalizing id parent input scopes s with
  | zero => exact ⟨[], (List.append_nil _).symm, .skip (.inr rfl) .done⟩
  | succ depth ih =>
    cases id with
    | none => exact ⟨[], (List.append_nil _).symm, .skip (.inl rfl) .done⟩
    | some n =>
      cases hnode : s.program.store.get? (some n) with
      | none =>
        simp only [Walk.subtree, hnode]
        exact ⟨[], (List.append_nil _).symm, .skip (.inl hnode) .done⟩
      | some node =>
        have hsome : (s.program.store.get? (some n)).isSome := by
          rw [hnode]
          rfl
        have hchildren : s.program.store.children (some n) = node.children := by
          rw [NodeStore.children, hnode]
          rfl
        simp only [Walk.subtree, hnode]
        refine Logs.node hsome ?_ ⟨n, parent, _, scopes⟩ rfl
        rw [hchildren]
        split
        · next hlisted =>
          rw [hlisted]
          exact .refl visit depth s
        · next name rest _ hlisted =>
          rw [hlisted]
          cases parent.isSome && s.program.store.isFunctionExpression (some n) with
          | true =>
            exact Logs.each (fun child t => ih child _ _ _ t) (name :: rest) (s.entering n scopes)
          | false =>
            rw [← List.singleton_append]
            refine Logs.andThen (ih name (some n) _ scopes s) fun t => ?_
            exact Logs.each (fun child u => ih child _ _ _ u) rest (t.entering n scopes)
        · exact .each (fun child t => ih child _ _ _ t) _ s

namespace Walk

/-- Walks some roots, to any depth: `roots` goes to `depthBound`. -/
def rootsTo (visit : Visitor ε σ) (depth : Nat) (p : Program) (ids : List NodeId) (own : σ) :
    Progress ε (WalkState σ) :=
  Progress.each (fun id => subtree visit depth id none none [0]) (ids.map some)
    (start p (ids.map some) own)

/-- The visits of a walk of some roots, to any depth. -/
def visitsTo (visit : Visitor ε σ) (depth : Nat) (p : Program) (ids : List NodeId) (own : σ) :
    List (Visited ε σ) :=
  (rootsTo visit.logged depth p ids (own, [])).state.own.2

/-- The visits of a walk of some roots. -/
def visits (visit : Visitor ε σ) (p : Program) (ids : List NodeId) (own : σ) :
    List (Visited ε σ) :=
  visitsTo visit (depthBound p) p ids own

/-- A walk does what the walk does that logs its visits. -/
theorem roots_follows (visit : Visitor ε σ) (depth : Nat) (p : Program) (ids : List NodeId)
    (own : σ) :
    (rootsTo visit depth p ids own).Follows (fun t logged => logged.plain = t)
      (rootsTo visit.logged depth p ids (own, [])) := by
  refine Progress.Follows.each ?_ rfl
  rintro id _ s rfl
  exact visit.logged_follows _ id none none [0] s

/-- The visits of a walk are its trail, from the nodes of the start to those of the end. -/
theorem trail (visit : Visitor ε σ) (depth : Nat) (p : Program) (ids : List NodeId) (own : σ) :
    Trail visit depth (ids.map some) p.store (visitsTo visit depth p ids own)
      (rootsTo visit depth p ids own).state.program.store
      (rootsTo visit depth p ids own).error? := by
  obtain ⟨log, hlog, htrail⟩ := Logs.each (fun id t => visit.logs depth id none none [0] t)
    (ids.map some) (start p (ids.map some) (own, ([] : List (Visited ε σ))))
  have hvisits : visitsTo visit depth p ids own = log := hlog
  have hfollows := roots_follows visit depth p ids own
  rw [hvisits]
  rw [hfollows.error, ← hfollows.state]
  exact htrail

end Walk

end RefCheck
