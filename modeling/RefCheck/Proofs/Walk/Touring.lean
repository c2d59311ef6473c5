import RefCheck.Proofs.Scope.Layout
import RefCheck.Proofs.Script.Enclosing
import RefCheck.Proofs.Walk.Logged

/-!
# Scopes along a walk

When a walk comes to a function, it makes one scope for it, below the scope that it is in. So the
scopes around a visit are those of the functions around the node, out to the global one.
-/

namespace RefCheck

open RefCheck.Script RefCheck.Script.NodeStore

variable {ε σ : Type}

/-- A visitor that leaves the program alone. It may declare names, which keeps all scopes where they
are. -/
structure Visitor.ReadOnly (visit : Visitor ε σ) : Prop where
  program : ∀ place s, (visit place s).state.program = s.program
  layout : ∀ place s, (visit place s).state.scopes.layout = s.scopes.layout

/-- The visit found the scopes of the functions around its node. -/
def Visited.Sees (s : NodeStore) (top : Option NodeId) (v : Visited ε σ) : Prop :=
  ∃ functions, s.Within v.node functions ∧
    Nests top v.before.scopes.layout v.place.scopes functions

/-- A piece of a walk in a region of the program: what it logs and which scopes it makes. Each scope
is for a function of the region, and something inside the function was visited; no function gets
two. -/
structure Tours (p : Program) (top : Option NodeId) (region : NodeId → Prop)
    (s : WalkState (σ × List (Visited ε σ)))
    (walk : Progress ε (WalkState (σ × List (Visited ε σ)))) (log : List (Visited ε σ))
    (made : List (Option ScopeId × Option NodeId)) : Prop where
  program : walk.state.program = p
  logged : walk.state.own.2 = s.own.2 ++ log
  layout : walk.state.scopes.layout = s.scopes.layout ++ made
  before : ∀ v ∈ log, v.before.program = p ∧ v.before.scopes.layout <+: walk.state.scopes.layout
  sees : ∀ v ∈ log, v.Sees p.store top
  inside : ∀ v ∈ log, region v.node
  made_for : ∀ entry ∈ made, ∃ f, entry.2 = some f ∧ region f ∧
    ∃ v ∈ log, p.store.Encloses f v.node
  own : ∀ v ∈ log, p.store.kind? (some v.node) = some .function →
    ∃ entry ∈ made, entry.2 = some v.node
  distinct : (made.map Prod.snd).Nodup

namespace Tours

variable {p : Program} {top : Option NodeId} {region region' : NodeId → Prop}
  {s : WalkState (σ × List (Visited ε σ))}
  {walk : Progress ε (WalkState (σ × List (Visited ε σ)))} {log : List (Visited ε σ)}
  {made : List (Option ScopeId × Option NodeId)}

theorem refl (hs : s.program = p) : Tours p top region s (.on s : Progress ε _) [] [] where
  program := hs
  logged := (List.append_nil _).symm
  layout := (List.append_nil _).symm
  before := List.forall_mem_nil _
  sees := List.forall_mem_nil _
  inside := List.forall_mem_nil _
  made_for := List.forall_mem_nil _
  own := List.forall_mem_nil _
  distinct := List.nodup_nil

theorem mono (h : Tours p top region s walk log made) (hregion : ∀ n, region n → region' n) :
    Tours p top region' s walk log made where
  program := h.program
  logged := h.logged
  layout := h.layout
  before := h.before
  sees := h.sees
  inside v hv := hregion _ (h.inside v hv)
  made_for entry hentry := by
    obtain ⟨f, hf, hin, hv⟩ := h.made_for entry hentry
    exact ⟨f, hf, hregion f hin, hv⟩
  own := h.own
  distinct := h.distinct

/-- A piece goes on in another region. -/
theorem append {t : WalkState (σ × List (Visited ε σ))} {more : List (Visited ε σ)}
    {further : List (Option ScopeId × Option NodeId)}
    (h : Tours p top region s (.on t : Progress ε _) log made)
    (hmore : Tours p top region' t walk more further) (hapart : ∀ n, region n → ¬region' n) :
    Tours p top (fun n => region n ∨ region' n) s walk (log ++ more) (made ++ further) := by
  have hlater : t.scopes.layout <+: walk.state.scopes.layout := ⟨further, hmore.layout.symm⟩
  refine ⟨hmore.program, ?_, ?_, ?_, ?_, ?_, ?_, ?_, ?_⟩
  · rw [← List.append_assoc, ← h.logged]
    exact hmore.logged
  · rw [← List.append_assoc, ← h.layout]
    exact hmore.layout
  · refine List.forall_mem_append.mpr ⟨fun v hv => ?_, hmore.before⟩
    exact ⟨(h.before v hv).1, (h.before v hv).2.trans hlater⟩
  · exact List.forall_mem_append.mpr ⟨h.sees, hmore.sees⟩
  · exact List.forall_mem_append.mpr
      ⟨fun v hv => .inl (h.inside v hv), fun v hv => .inr (hmore.inside v hv)⟩
  · intro entry hentry
    rcases List.mem_append.mp hentry with hentry | hentry
    · obtain ⟨f, hf, hin, v, hv, hencloses⟩ := h.made_for entry hentry
      exact ⟨f, hf, .inl hin, v, List.mem_append_left _ hv, hencloses⟩
    · obtain ⟨f, hf, hin, v, hv, hencloses⟩ := hmore.made_for entry hentry
      exact ⟨f, hf, .inr hin, v, List.mem_append_right _ hv, hencloses⟩
  · intro v hv hkind
    rcases List.mem_append.mp hv with hv | hv
    · obtain ⟨entry, hentry, hf⟩ := h.own v hv hkind
      exact ⟨entry, List.mem_append_left _ hentry, hf⟩
    · obtain ⟨entry, hentry, hf⟩ := hmore.own v hv hkind
      exact ⟨entry, List.mem_append_right _ hentry, hf⟩
  · rw [List.map_append, List.nodup_append]
    refine ⟨h.distinct, hmore.distinct, ?_⟩
    intro r hr r' hr' hsame
    obtain ⟨entry, hentry, rfl⟩ := List.mem_map.mp hr
    obtain ⟨entry', hentry', rfl⟩ := List.mem_map.mp hr'
    obtain ⟨f, hf, hin, -⟩ := h.made_for entry hentry
    obtain ⟨f', hf', hin', -⟩ := hmore.made_for entry' hentry'
    rw [hf, hf'] at hsame
    exact hapart f hin (Option.some.inj hsame ▸ hin')

/-- Pieces in regions that are apart make one piece. -/
theorem each {step : Option NodeId → WalkState (σ × List (Visited ε σ)) → Progress ε _}
    {items : List (Option NodeId)} {regions : Option NodeId → NodeId → Prop}
    (h : ∀ item ∈ items, ∀ t, t.program = p → s.scopes.layout <+: t.scopes.layout →
      ∃ log made, Tours p top (regions item) t (step item t) log made)
    (hapart : items.Pairwise fun a b => ∀ n, regions a n → ¬regions b n) (hs : s.program = p) :
    ∃ log made, Tours p top (fun n => ∃ item ∈ items, regions item n) s
      (Progress.each step items s) log made := by
  induction items generalizing s with
  | nil => exact ⟨[], [], .refl hs⟩
  | cons item rest ih =>
    obtain ⟨hfirst, hrest⟩ := List.pairwise_cons.mp hapart
    obtain ⟨log, made, hitem⟩ := h item List.mem_cons_self s hs List.prefix_rfl
    have hregion : ∀ n, regions item n ∨ (∃ other ∈ rest, regions other n) →
        ∃ other ∈ item :: rest, regions other n := by
      rintro n (hn | ⟨other, hother, hn⟩)
      · exact ⟨item, List.mem_cons_self, hn⟩
      · exact ⟨other, List.mem_cons_of_mem _ hother, hn⟩
    rw [Progress.each]
    cases hwalk : step item s with
    | stopped e t => exact ⟨log, made, (hwalk ▸ hitem).mono fun n hn => hregion n (.inl hn)⟩
    | on t =>
      rw [hwalk] at hitem
      have hlater : s.scopes.layout <+: t.scopes.layout := ⟨made, hitem.layout.symm⟩
      obtain ⟨more, further, hmore⟩ := ih (s := t) (fun other hother u hu htu =>
        h other (List.mem_cons_of_mem _ hother) u hu (hlater.trans htu)) hrest hitem.program
      have hboth := hitem.append hmore fun n hn hmet => by
        obtain ⟨other, hother, hin⟩ := hmet
        exact hfirst other hother n hn hin
      exact ⟨_, _, hboth.mono hregion⟩

/-- A function is entered before its inner parts are walked. -/
theorem entered {n : NodeId} {scopes : List ScopeId} {ids : List (Option NodeId)}
    (h : Tours p top (fun m => ∃ id ∈ ids, ∃ c ∈ id, p.store.Above c m) (s.entering n scopes) walk
      log made) (hlog : log ≠ []) (hlinked : p.store.Linked) (hn : p.store.Anchored n)
    (hkind : p.store.kind? (some n) = some .function)
    (hids : ∀ c, some c ∈ ids → p.store.Inner n c) :
    Tours p top (fun m => m = n ∨ ∃ id ∈ ids, ∃ c ∈ id, p.store.Above c m) s walk log
      ((scopes.head?, some n) :: made) where
  program := h.program
  logged := h.logged
  layout := by
    have hlayout := h.layout
    rw [WalkState.entering, ScopeTable.layout_pushFunction, List.append_assoc] at hlayout
    exact hlayout
  before := h.before
  sees := h.sees
  inside v hv := .inr (h.inside v hv)
  made_for entry hentry := by
    rcases List.mem_cons.mp hentry with rfl | hentry
    · obtain ⟨v, hv⟩ := List.exists_mem_of_ne_nil log hlog
      obtain ⟨id, hid, c, rfl, habove⟩ := h.inside v hv
      exact ⟨n, rfl, .inl rfl, v, hv, hkind, c, hids c hid, habove⟩
    · obtain ⟨f, hf, hin, hv⟩ := h.made_for entry hentry
      exact ⟨f, hf, .inr hin, hv⟩
  own v hv hv' := by
    obtain ⟨entry, hentry, hf⟩ := h.own v hv hv'
    exact ⟨entry, List.mem_cons_of_mem _ hentry, hf⟩
  distinct := by
    refine List.nodup_cons.mpr ⟨fun hmem => ?_, h.distinct⟩
    obtain ⟨entry, hentry, hsame⟩ := List.mem_map.mp hmem
    obtain ⟨f, hf, ⟨id, hid, c, rfl, habove⟩, -⟩ := h.made_for entry hentry
    obtain rfl : f = n := Option.some.inj (hf.symm.trans hsame)
    exact hlinked.not_above hn (hids c hid).listed habove

/-- A node is visited after what is below it. -/
theorem visited {visit : Visitor ε σ} (hvisit : visit.ReadOnly) (place : Place)
    {functions : List NodeId}
    (h : Tours p top (p.store.Above place.node) s walk log made)
    (hwithin : p.store.Within place.node functions)
    (hnests : Nests top s.scopes.layout place.scopes functions)
    (hown : walk.error? = none → p.store.kind? (some place.node) = some .function →
      ∃ entry ∈ made, entry.2 = some place.node) :
    ∃ log, Tours p top (p.store.Above place.node) s (walk.andThen (visit.logged place)) log
      made := by
  cases walk with
  | stopped e t => exact ⟨log, h⟩
  | on t =>
    let v : Visited ε σ := ⟨place, t.plain, visit place t.plain⟩
    have hprogram : t.program = p := h.program
    have hlayout : t.scopes.layout = s.scopes.layout ++ made := h.layout
    have hafter : v.outcome.state.scopes.layout = t.scopes.layout := hvisit.layout place t.plain
    rw [Progress.on_andThen]
    refine ⟨log ++ [v], ?_, ?_, ?_, ?_, ?_, ?_, ?_, ?_, h.distinct⟩
    · rw [Visitor.logged_state]
      exact (hvisit.program place t.plain).trans hprogram
    · rw [Visitor.logged_state, ← List.append_assoc, ← h.logged]
      rfl
    · rw [Visitor.logged_state]
      exact hafter.trans hlayout
    · rw [Visitor.logged_state]
      intro w hw
      rcases List.mem_append.mp hw with hw | hw
      · obtain ⟨hbefore, hlater⟩ := h.before w hw
        exact ⟨hbefore, hafter ▸ hlater⟩
      · obtain rfl := List.mem_singleton.mp hw
        exact ⟨hprogram, hafter ▸ List.prefix_rfl⟩
    · refine List.forall_mem_append.mpr ⟨h.sees, List.forall_mem_singleton.mpr ?_⟩
      exact ⟨functions, hwithin, hnests.mono ⟨made, hlayout.symm⟩⟩
    · exact List.forall_mem_append.mpr ⟨h.inside, List.forall_mem_singleton.mpr (.refl _)⟩
    · intro entry hentry
      obtain ⟨f, hf, hin, w, hw, hencloses⟩ := h.made_for entry hentry
      exact ⟨f, hf, hin, w, List.mem_append_left _ hw, hencloses⟩
    · exact List.forall_mem_append.mpr ⟨h.own, List.forall_mem_singleton.mpr (hown rfl)⟩

theorem before_after {visit : Visitor ε σ} (hvisit : visit.ReadOnly)
    (h : Tours p top region s walk log made)
    (hasked : ∀ v ∈ log, v.outcome = visit v.place v.before) :
    ∀ v ∈ log, v.before.program = p ∧ v.after = p.store := by
  intro v hv
  have hbefore := (h.before v hv).1
  refine ⟨hbefore, ?_⟩
  rw [Visited.after, hasked v hv, hvisit.program, hbefore]

/-- From the start on, the scopes that were made belong to the functions in which something was
visited. -/
theorem mem_made (h : Tours p top region s walk log made) (hs : s.scopes.layout = [(none, top)])
    (f : NodeId) :
    some f ∈ made.map Prod.snd ↔ ∃ v ∈ log, p.store.Encloses f v.node := by
  constructor
  · intro hf
    obtain ⟨entry, hentry, hsame⟩ := List.mem_map.mp hf
    obtain ⟨f', hf', -, hv⟩ := h.made_for entry hentry
    obtain rfl : f' = f := Option.some.inj (hf'.symm.trans hsame)
    exact hv
  · rintro ⟨v, hv, hencloses⟩
    obtain ⟨functions, hwithin, hnests⟩ := h.sees v hv
    obtain ⟨i, outer, hpos, hentry⟩ := hnests.exists_entry ((hwithin.mem f).mpr hencloses)
    obtain ⟨i, rfl⟩ := Nat.exists_eq_succ_of_ne_zero hpos.ne'
    obtain ⟨rest, hrest⟩ := (h.before v hv).2
    rw [h.layout, hs] at hrest
    have hfinal : (v.before.scopes.layout ++ rest)[i + 1]? = some (outer, some f) := by
      rw [List.getElem?_append_left (List.getElem?_eq_some_iff.mp hentry).1]
      exact hentry
    rw [hrest] at hfinal
    exact List.mem_map.mpr ⟨_, List.mem_of_getElem? hfinal, rfl⟩

theorem exists_functions (h : Tours p top region s walk log made) :
    ∃ functions : List NodeId, functions.map some = made.map Prod.snd ∧
      ∀ f ∈ functions, region f := by
  have hmade := h.made_for
  clear h
  induction made with
  | nil => exact ⟨[], rfl, List.forall_mem_nil _⟩
  | cons entry rest ih =>
    obtain ⟨⟨f, hf, hin, -⟩, hrest⟩ := List.forall_mem_cons.mp hmade
    obtain ⟨functions, hfunctions, hregion⟩ := ih hrest
    refine ⟨f :: functions, ?_, List.forall_mem_cons.mpr ⟨hin, hregion⟩⟩
    rw [List.map_cons, List.map_cons, hfunctions, hf]

/-- From the start on, one scope was made besides the global one for each function in which
something was visited. -/
theorem exists_made (h : Tours p top region s walk log made)
    (hs : s.scopes.layout = [(none, top)]) :
    ∃ functions : List NodeId,
      walk.state.scopes.layout.map Prod.snd = top :: functions.map some ∧ functions.Nodup ∧
      (∀ f ∈ functions, region f) ∧
      (∀ f, f ∈ functions ↔ ∃ v ∈ log, p.store.Encloses f v.node) ∧
      ∀ v ∈ log, p.store.kind? (some v.node) = some .function → v.node ∈ functions := by
  obtain ⟨functions, hfunctions, hregion⟩ := h.exists_functions
  have hmem : ∀ f, f ∈ functions ↔ some f ∈ made.map Prod.snd := by
    intro f
    rw [← hfunctions, List.mem_map_of_injective (Option.some_injective _)]
  refine ⟨functions, ?_, (hfunctions ▸ h.distinct).of_map some, hregion, ?_, ?_⟩
  · rw [h.layout, hs, List.map_append, hfunctions]
    rfl
  · exact fun f => (hmem f).trans (h.mem_made hs f)
  · intro v hv hkind
    obtain ⟨entry, hentry, hf⟩ := h.own v hv hkind
    exact (hmem _).mpr (hf ▸ List.mem_map_of_mem hentry)

end Tours

/-- The trees below some nodes without a parent, none of them a function, in which every function
has a name, parameters and a body. -/
structure Script.NodeStore.Regular (s : NodeStore) (roots : List NodeId) : Prop
    extends s.Rooted roots where
  free : ∀ root ∈ roots, s.parent (some root) = none
  plain : ∀ root ∈ roots, s.kind? (some root) ≠ some .function
  parts : ∀ f, s.InTree roots f → s.kind? (some f) = some .function →
    ∃ name params body, s.children (some f) = [some name, some params, some body]

/-- Walks of so many levels of the trees come in pieces. -/
def Visitor.Touring (visit : Visitor ε σ) (p : Program) (top : Option NodeId) (roots : List NodeId)
    (depth : Nat) : Prop :=
  ∀ (n : NodeId) parent input scopes functions (s : WalkState (σ × List (Visited ε σ))),
    s.program = p → p.store.InTree roots n → p.store.Shallow depth n →
    (p.store.kind? (some n) = some .function → parent.isSome) →
    p.store.Within n functions → Nests top s.scopes.layout scopes functions →
    ∃ log made, Tours p top (p.store.Above n) s
      (Walk.subtree visit.logged depth (some n) parent input scopes s) log made

section Walks

variable {visit : Visitor ε σ} {p : Program} {top : Option NodeId} {roots : List NodeId}
  {depth : Nat} {n : NodeId} {ids : List (Option NodeId)} {scopes : List ScopeId}
  {functions : List NodeId} {s : WalkState (σ × List (Visited ε σ))}

/-- Some of the children of a node, all in the same functions. -/
theorem Visitor.Touring.children (h : visit.Touring p top roots depth)
    (hrooted : p.store.Rooted roots) (hs : s.program = p) (hn : p.store.InTree roots n)
    (hdeep : p.store.Shallow (depth + 1) n) (hids : ids.Sublist (p.store.children (some n)))
    (hwithin : ∀ c, some c ∈ ids → p.store.Within c functions)
    (hnests : Nests top s.scopes.layout scopes functions) (input : Option InputId) :
    ∃ log made, Tours p top (fun m => ∃ id ∈ ids, ∃ c ∈ id, p.store.Above c m) s
      (Progress.each (fun child => Walk.subtree visit.logged depth child (some n) input scopes) ids
        s) log made := by
  refine Tours.each ?_ ?_ hs
  · intro child hchild t ht hst
    cases child with
    | none =>
      have hstay : Walk.subtree visit.logged depth none (some n) input scopes t = .on t := by
        cases depth <;> rfl
      rw [hstay]
      exact ⟨[], [], .refl ht⟩
    | some c =>
      have hlisted := hids.subset hchild
      obtain ⟨log, made, hc⟩ := h c (some n) input scopes functions t ht (hn.child hlisted)
        (hdeep.child hlisted) (fun _ => rfl) (hwithin c hchild) (hnests.mono hst)
      exact ⟨log, made, hc.mono fun m hm => ⟨c, rfl, hm⟩⟩
  · refine ((hrooted.linked.apart_listed (hrooted.anchored_of_inTree hn)).sublist hids).imp ?_
    rintro a b hab m ⟨c, hc, hcm⟩ ⟨d, hd, hdm⟩
    exact hab c hc d hd m hcm hdm

/-- The inner parts of a function, after it was entered. -/
theorem Visitor.Touring.inner (h : visit.Touring p top roots depth)
    (hrooted : p.store.Rooted roots) (hs : s.program = p) (hn : p.store.InTree roots n)
    (hkind : p.store.kind? (some n) = some .function)
    (hdeep : p.store.Shallow (depth + 1) n) {c : NodeId} {rest : List (Option NodeId)}
    (hids : (some c :: rest).Sublist (p.store.children (some n)))
    (hinner : ∀ d, some d ∈ some c :: rest → p.store.Inner n d)
    (hwithin : p.store.Within n functions)
    (hnests : Nests top s.scopes.layout scopes functions) (input : Option InputId) :
    ∃ log made, Tours p top (fun m => m = n ∨ ∃ id ∈ some c :: rest, ∃ c ∈ id, p.store.Above c m) s
      (Progress.each (fun child => Walk.subtree visit.logged depth child (some n) input
        (s.scopes.size :: scopes)) (some c :: rest) (s.entering n scopes)) log
      ((scopes.head?, some n) :: made) := by
  have hanchored := hrooted.anchored_of_inTree hn
  have hentered : Nests top (s.entering n scopes).scopes.layout (s.scopes.size :: scopes)
      (n :: functions) := by
    rw [WalkState.entering, ScopeTable.layout_pushFunction, ← s.scopes.length_layout]
    exact hnests.enter n
  obtain ⟨log, made, hwalk⟩ := h.children (s := s.entering n scopes) hrooted hs hn hdeep hids
    (fun d hd => hrooted.linked.within_inner hwithin hanchored hkind (hinner d hd)) hentered input
  refine ⟨log, made, hwalk.entered ?_ hrooted.linked hanchored hkind hinner⟩
  -- The first part is there, so something in it has been visited.
  obtain ⟨more, hmore, htrail⟩ := Logs.each (fun id t => visit.logs depth id (some n) input
    (s.scopes.size :: scopes) t) (some c :: rest) (s.entering n scopes)
  have hsame : log = more := List.append_cancel_left (hwalk.logged.symm.trans hmore)
  have hc := hids.subset List.mem_cons_self
  obtain ⟨depth, rfl⟩ := Nat.exists_eq_succ_of_ne_zero (hdeep.child hc).pos.ne'
  have hthere : ((s.entering n scopes).program.store.get? (some c)).isSome := by
    rw [show (s.entering n scopes).program = p from hs]
    exact hrooted.isSome_get? (hn.child hc)
  exact hsame ▸ htrail.ne_nil hthere

/-- A function whose name is not its own: the name is walked outside of it. -/
theorem Visitor.Touring.declaration (h : visit.Touring p top roots depth)
    (hrooted : p.store.Rooted roots) (hs : s.program = p) (hn : p.store.InTree roots n)
    (hkind : p.store.kind? (some n) = some .function)
    (hplace : p.store.isFunctionExpression (some n) = false)
    (hdeep : p.store.Shallow (depth + 1) n) {name params body : NodeId}
    (hparts : p.store.children (some n) = [some name, some params, some body])
    (hwithin : p.store.Within n functions)
    (hnests : Nests top s.scopes.layout scopes functions) (input : Option InputId) :
    let walk := (Walk.subtree visit.logged depth (some name) (some n) input scopes s).andThen
      fun t => Progress.each (fun child => Walk.subtree visit.logged depth child (some n) input
        (t.scopes.size :: scopes)) [some params, some body] (t.entering n scopes)
    ∃ log made, Tours p top (p.store.Above n) s walk log made ∧
      (walk.error? = none → ∃ entry ∈ made, entry.2 = some n) := by
  intro walk
  have hanchored := hrooted.anchored_of_inTree hn
  have hlisted : some name ∈ p.store.children (some n) := hparts ▸ List.mem_cons_self
  have happart := hrooted.linked.apart_listed hanchored
  rw [hparts, List.pairwise_cons] at happart
  have hname : ¬p.store.Inner n name := hrooted.linked.not_inner_name hanchored hparts hplace
  obtain ⟨log, made, hwalk⟩ := h name (some n) input scopes functions s hs (hn.child hlisted)
    (hdeep.child hlisted) (fun _ => rfl)
    (hrooted.linked.within_listed hwithin hlisted fun _ => hname) hnests
  have hbelow : ∀ m, p.store.Above name m → p.store.Above n m := fun m => .head hlisted
  cases hnamed : Walk.subtree visit.logged depth (some name) (some n) input scopes s with
  | stopped e t =>
    have hstop : walk = .stopped e t := by simp only [walk, hnamed, Progress.stopped_andThen]
    rw [hstop]
    exact ⟨log, made, (hnamed ▸ hwalk).mono hbelow, nofun⟩
  | on t =>
    rw [hnamed] at hwalk
    have hlater : s.scopes.layout <+: t.scopes.layout := ⟨made, hwalk.layout.symm⟩
    have hinner : ∀ d, some d ∈ [some params, some body] → p.store.Inner n d := by
      intro d hd
      rw [inner_iff hparts]
      simp only [List.mem_cons, List.not_mem_nil, or_false, Option.some_inj] at hd
      exact hd.imp_right .inl
    obtain ⟨more, further, hmore⟩ := h.inner hrooted hwalk.program hn hkind hdeep
      (hparts ▸ List.sublist_cons_self _ _) hinner hwithin (hnests.mono hlater) input
    have hon : walk = Progress.each (fun child => Walk.subtree visit.logged depth child (some n)
        input (t.scopes.size :: scopes)) [some params, some body] (t.entering n scopes) := by
      simp only [walk, hnamed, Progress.on_andThen]
    rw [hon]
    refine ⟨_, _, (hwalk.append hmore ?_).mono ?_, fun _ => ?_⟩
    · rintro m hm (rfl | ⟨id, hid, c, hc, hcm⟩)
      · exact hrooted.linked.not_above hanchored hlisted hm
      · exact happart.1 id hid name rfl c hc m hm hcm
    · rintro m (hm | rfl | ⟨id, hid, c, rfl, hcm⟩)
      · exact hbelow m hm
      · exact .refl m
      · exact .head (hinner c hid).listed hcm
    · exact ⟨_, List.mem_append_right _ List.mem_cons_self, rfl⟩

/-- A function whose name is its own: the name is walked inside of it, too. -/
theorem Visitor.Touring.expression (h : visit.Touring p top roots depth)
    (hrooted : p.store.Rooted roots) (hs : s.program = p) (hn : p.store.InTree roots n)
    (hkind : p.store.kind? (some n) = some .function)
    (hplace : p.store.isFunctionExpression (some n) = true)
    (hdeep : p.store.Shallow (depth + 1) n) {name params body : NodeId}
    (hparts : p.store.children (some n) = [some name, some params, some body])
    (hwithin : p.store.Within n functions)
    (hnests : Nests top s.scopes.layout scopes functions) (input : Option InputId) :
    ∃ log made, Tours p top (p.store.Above n) s
      (Progress.each (fun child => Walk.subtree visit.logged depth child (some n) input
        (s.scopes.size :: scopes)) [some name, some params, some body] (s.entering n scopes))
      log made ∧ ∃ entry ∈ made, entry.2 = some n := by
  have hinner : ∀ c, some c ∈ [some name, some params, some body] → p.store.Inner n c := by
    intro c hc
    rw [inner_iff hparts]
    simp only [List.mem_cons, List.not_mem_nil, or_false, Option.some_inj] at hc
    rcases hc with rfl | rfl | rfl
    · exact .inr (.inr ⟨hplace, rfl⟩)
    · exact .inl rfl
    · exact .inr (.inl rfl)
  obtain ⟨log, made, hwalk⟩ := h.inner hrooted hs hn hkind hdeep (hparts ▸ List.Sublist.refl _)
    hinner hwithin hnests input
  refine ⟨log, _, hwalk.mono ?_, _, List.mem_cons_self, rfl⟩
  rintro m (rfl | ⟨id, hid, c, rfl, hcm⟩)
  · exact .refl m
  · exact .head (hinner c hid).listed hcm

/-- A node that is no function: all that it lists is in the same functions. -/
theorem Visitor.Touring.plain (h : visit.Touring p top roots depth)
    (hrooted : p.store.Rooted roots) (hs : s.program = p) (hn : p.store.InTree roots n)
    (hkind : p.store.kind? (some n) ≠ some .function) (hdeep : p.store.Shallow (depth + 1) n)
    (hwithin : p.store.Within n functions)
    (hnests : Nests top s.scopes.layout scopes functions) (input : Option InputId) :
    ∃ log made, Tours p top (p.store.Above n) s
      (Progress.each (fun child => Walk.subtree visit.logged depth child (some n) input scopes)
        (p.store.children (some n)) s) log made := by
  obtain ⟨log, made, hwalk⟩ := h.children hrooted hs hn hdeep (List.Sublist.refl _)
    (fun c hc => hrooted.linked.within_listed hwithin hc fun hfunction => absurd hfunction hkind)
    hnests input
  refine ⟨log, made, hwalk.mono ?_⟩
  rintro m ⟨id, hid, c, rfl, hcm⟩
  exact .head hid hcm

/-- Walks of any depth come in pieces. -/
theorem Visitor.ReadOnly.touring (hvisit : visit.ReadOnly) (hregular : p.store.Regular roots)
    (depth : Nat) : visit.Touring p top roots depth := by
  induction depth with
  | zero => exact fun n _ _ _ _ _ _ _ hdeep => absurd hdeep.pos (Nat.lt_irrefl 0)
  | succ depth ih =>
    intro n parent input scopes functions s hs hn hdeep hparent hwithin hnests
    have hrooted := hregular.toRooted
    obtain ⟨node, hnode⟩ := Option.isSome_iff_exists.mp (hrooted.isSome_get? hn)
    have hget : s.program.store.get? (some n) = some node := hs ▸ hnode
    have hnodekind : p.store.kind? (some n) = some node.kind := by
      rw [NodeStore.kind?, hnode]
      rfl
    have hlisted : p.store.children (some n) = node.children := by
      rw [NodeStore.children, hnode]
      rfl
    by_cases hkind : node.kind = .function
    · rw [hkind] at hnodekind
      obtain ⟨name, params, body, hparts⟩ := hregular.parts n hn hnodekind
      cases hplace : p.store.isFunctionExpression (some n) with
      | true =>
        obtain ⟨above, rfl⟩ := Option.isSome_iff_exists.mp (hparent hnodekind)
        rw [Walk.subtree_expression hget hkind (hlisted ▸ hparts) rfl (hs ▸ hplace)]
        obtain ⟨log, made, hwalk, hown⟩ := ih.expression hrooted hs hn hnodekind hplace hdeep
          hparts hwithin hnests input
        obtain ⟨log, hvisited⟩ := Tours.visited hvisit ⟨n, some above, input, scopes⟩ hwalk hwithin
          hnests fun _ _ => hown
        exact ⟨log, made, hvisited⟩
      | false =>
        rw [Walk.subtree_declaration hget hkind (hlisted ▸ hparts) (hs ▸ hplace)]
        obtain ⟨log, made, hwalk, hown⟩ := ih.declaration hrooted hs hn hnodekind hplace hdeep
          hparts hwithin hnests input
        obtain ⟨log, hvisited⟩ := Tours.visited hvisit ⟨n, parent, input, scopes⟩ hwalk hwithin
          hnests fun herror _ => hown herror
        exact ⟨log, made, hvisited⟩
    · rw [Walk.subtree_plain hget hkind, ← hlisted]
      have hplain : p.store.kind? (some n) ≠ some .function := by
        rw [hnodekind]
        exact fun hsome => hkind (Option.some.inj hsome)
      obtain ⟨log, made, hwalk⟩ := ih.plain hrooted hs hn hplain hdeep hwithin hnests _
      obtain ⟨log, hvisited⟩ := Tours.visited hvisit ⟨n, parent, _, scopes⟩ hwalk hwithin hnests
        fun _ hfunction => absurd hfunction hplain
      exact ⟨log, made, hvisited⟩

end Walks

end RefCheck
