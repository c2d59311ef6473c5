import RefCheck.Proofs.Check.Integrity
import RefCheck.Proofs.Check.Locality
import RefCheck.Proofs.Check.Walks

/-!
# What a check visits

All that a check does to a program is to append placeholders. Wherever they are put, the check
visits the trees of the start in postorder. It also visits its placeholders if their script was
there before, and still has to be walked when they are put into it.
-/

namespace RefCheck

open RefCheck.Text RefCheck.Script RefCheck.Script.NodeStore

theorem Script.NodeStore.Grew.widens {s t : NodeStore} (h : s.Grew t) : s.Widens t := by
  intro n node hnode
  obtain ⟨new, hnew, hgrew⟩ := h n node hnode
  obtain ⟨more, hmore⟩ := hgrew.more
  refine ⟨more, ?_⟩
  rw [hmore, ← hgrew.same]
  exact hnew

namespace Check

variable {p : Program} {plots : List Plot} {repairs : Repairs}

/-- A check that can go on, the links agree, and all that was visited has appended. -/
structure Appending (p : Program) (own : Repairs × List (Visited VariableError Repairs)) :
    Prop where
  ready : ∃ plots, Ready p plots own.1
  linked : p.store.Linked
  appends : ∀ v ∈ own.2, v.Appends

theorem Ready.root_lt (h : Ready p plots repairs) :
    ∀ host ∈ repairs, host.root < p.store.size := by
  intro host hhost
  obtain ⟨plot, hplot, hhosts⟩ := h.hosted host hhost
  rw [← hhosts.root]
  exact NodeStore.lt_of_get? (h.holds.shown plot hplot).node

theorem Mends.linked {s : WalkState Repairs} {visited : Progress VariableError (WalkState Repairs)}
    (h : Mends s visited) (hready : Ready s.program plots s.own)
    (hlinked : s.program.store.Linked) : visited.state.program.store.Linked := by
  obtain ⟨bag, names, -, hstate⟩ := h
  have hprogram : visited.state.program = (mend ({ s.program with bag }, s.own) names).1 :=
    congrArg Prod.fst hstate
  have hlinked : ({ s.program with bag } : Program).store.Linked := hlinked
  rw [hprogram]
  exact linked_mend hlinked (hready.holds.root_lt (.inl rfl)) hready.root_lt names

theorem alike_appending (sanity : Bool) :
    Visitor.Alike (variableNames sanity).logged (variableNames sanity).logged Appending where
  holds p own h := by
    obtain ⟨plots, hready⟩ := h.ready
    exact ⟨plots, hready.holds⟩
  same _ _ _ _ := rfl
  fine place s h _ := by
    obtain ⟨plots, hready⟩ := h.ready
    have hmends : Mends s.plain (variableNames sanity place s.plain) := mends_variableNames
    obtain ⟨hafter, hgrew⟩ := hmends.ready hready
    have hlinked := hmends.linked hready h.linked
    rw [Visitor.logged_state]
    refine ⟨hafter, hlinked, ?_⟩
    intro v hv
    rcases List.mem_append.mp hv with hv | hv
    · exact h.appends v hv
    · obtain rfl := List.mem_singleton.mp hv
      exact ⟨hgrew.widens, hlinked⟩
  grew place s h _ := by
    obtain ⟨plots, hready⟩ := h.ready
    have hmends : Mends s.plain (variableNames sanity place s.plain) := mends_variableNames
    rw [Visitor.logged_state]
    exact (hmends.ready hready).2

theorem rooted_roots (hp : p.Holds plots) (hlinked : p.store.Linked) :
    p.store.Rooted Program.roots :=
  (hp.regular hlinked (by decide) fun _ hid => hid).toRooted

/-- A checker may make the script of its placeholders before it needs it. -/
theorem ready_create (hp : p.Holds plots) :
    ∃ after, Ready (Placeholders.create p).1 after (some (Placeholders.create p).2) := by
  obtain ⟨hholds, hhosts, -⟩ := holds_fresh hp
  refine ⟨_, hholds, fun host hhost => ⟨_, List.mem_append_right _ List.mem_cons_self, ?_⟩⟩
  obtain rfl := Option.some.inj hhost
  exact hhosts

/-- All that a check visits appends. -/
theorem Ready.appends (h : Ready p plots repairs) (hlinked : p.store.Linked) (sanity : Bool) :
    ∀ v ∈ Walk.visits (variableNames sanity) p Program.roots repairs, v.Appends :=
  ((alike_appending sanity).roots ⟨⟨plots, h⟩, hlinked, List.forall_mem_nil _⟩).fine.appends

/-- All nodes that were there stay as they are, but for the root of the externs. -/
def Spares (s t : NodeStore) : Prop :=
  ∀ (n : Nat) node, n ≠ Program.externsRoot → s.get? (some n) = some node →
    t.get? (some n) = some node

theorem Spares.children {s t : NodeStore} {n : Nat} (h : Spares s t)
    (hn : n ≠ Program.externsRoot) (hthere : (s.get? (some n)).isSome) :
    t.children (some n) = s.children (some n) := by
  obtain ⟨node, hnode⟩ := Option.isSome_iff_exists.mp hthere
  rw [NodeStore.children, NodeStore.children, hnode, h n node hn hnode]

/-- New nodes may hang below the root of the externs and below each other. -/
theorem Spares.hang {s t : NodeStore} {nodes : List Node} {parent child : Nat} (h : Spares s t)
    (hparent : parent = Program.externsRoot ∨ s.size ≤ parent) :
    Spares s (t.hang nodes parent child) := by
  intro n node hn hnode
  have hlt := NodeStore.lt_of_get? hnode
  have hne : n ≠ parent := by
    rcases hparent with rfl | hle
    · exact hn
    · omega
  exact NodeStore.get?_hang_of_ne hne (h n node hn hnode)

/-- Mending spares what was there, as long as the placeholders have a script of their own. -/
theorem spares_mend {s : NodeStore} (h : Spares s p.store)
    (hroot : Program.externsRoot < p.store.size) (hsize : s.size ≤ p.store.size)
    (hhost : ∀ host ∈ repairs, s.size ≤ host.root ∧ host.root < p.store.size)
    (names : List String) :
    Spares s (mend (p, repairs) names).1.store ∧
      ∀ host ∈ (mend (p, repairs) names).2, s.size ≤ host.root := by
  have hsome : ∀ (names : List String) (p : Program) (host : Placeholders), Spares s p.store →
      s.size ≤ host.root → host.root < p.store.size →
      Spares s (mend (p, some host) names).1.store ∧
        ∀ h ∈ (mend (p, some host) names).2, s.size ≤ h.root := by
    intro names
    induction names with
    | nil =>
      intro p host h hle _
      refine ⟨h, fun h hh => ?_⟩
      obtain rfl := Option.some.inj hh
      exact hle
    | cons name rest ih =>
      intro p host h hle hlt
      have hone : mendOne (p, some host) name = (p.withPlaceholder host.root name, some host) :=
        congrArg (·, some host) (Program.declare_eq hlt)
      rw [mend, List.foldl_cons, hone]
      refine ih _ host (h.hang (.inr hle)) hle (Nat.lt_of_lt_of_le hlt ?_)
      rw [Program.withPlaceholder, NodeStore.size_hang]
      exact Nat.le_add_right _ _
  cases repairs with
  | some host => exact hsome names p host h (hhost host rfl).1 (hhost host rfl).2
  | none =>
    cases names with
    | nil =>
      refine ⟨h, fun host hhost => ?_⟩
      cases hhost
    | cons name rest =>
      have hstore : (p.newExtern Placeholders.inputName).1.store =
          p.store.hang
            [⟨.script, "", Span.none, some Program.externsRoot, [], some p.inputs.length⟩]
            Program.externsRoot p.store.size := NodeStore.appendChild_push hroot
      rw [mend_none]
      refine hsome _ _ _ (hstore ▸ h.hang (.inl rfl)) hsize ?_
      rw [hstore, NodeStore.size_hang]
      exact Nat.lt_succ_self _

theorem Mends.spares {s : NodeStore} {t : WalkState Repairs}
    {visited : Progress VariableError (WalkState Repairs)} (h : Mends t visited)
    (hready : Ready t.program plots t.own) (hspares : Spares s t.program.store)
    (hsize : s.size ≤ t.program.store.size) (hhosts : ∀ host ∈ t.own, s.size ≤ host.root) :
    Spares s visited.state.program.store ∧ ∀ host ∈ visited.state.own, s.size ≤ host.root := by
  obtain ⟨bag, names, -, hstate⟩ := h
  have hprogram : visited.state.program = (mend ({ t.program with bag }, t.own) names).1 :=
    congrArg Prod.fst hstate
  have hown : visited.state.own = (mend ({ t.program with bag }, t.own) names).2 :=
    congrArg Prod.snd hstate
  have hspares : Spares s ({ t.program with bag } : Program).store := hspares
  rw [hprogram, hown]
  exact spares_mend hspares (hready.holds.root_lt (.inl rfl)) hsize
    (fun host hhost => ⟨hhosts host hhost, hready.root_lt host hhost⟩) names

/-- A check that began without placeholders spares what was there at the start. -/
structure Sparing (s : NodeStore) (p : Program)
    (own : Repairs × List (Visited VariableError Repairs)) : Prop extends Appending p own where
  spares : Spares s p.store
  size : s.size ≤ p.store.size
  hosts : ∀ host ∈ own.1, s.size ≤ host.root
  after : ∀ v ∈ own.2, Spares s v.after

theorem alike_sparing (s : NodeStore) (sanity : Bool) :
    Visitor.Alike (variableNames sanity).logged (variableNames sanity).logged (Sparing s) where
  holds p own h := (alike_appending sanity).holds p own h.toAppending
  same _ _ _ _ := rfl
  grew place t h harrives := (alike_appending sanity).grew place t h.toAppending harrives
  fine place t h harrives := by
    have hfine := (alike_appending sanity).fine place t h.toAppending harrives
    have hgrew := (alike_appending sanity).grew place t h.toAppending harrives
    obtain ⟨plots, hready⟩ := h.ready
    have hmends : Mends t.plain (variableNames sanity place t.plain) := mends_variableNames
    obtain ⟨hspares, hhosts⟩ := hmends.spares hready h.spares h.size h.hosts
    rw [Visitor.logged_state] at hfine hgrew ⊢
    refine ⟨hfine, hspares, Nat.le_trans h.size hgrew.size_le, hhosts, ?_⟩
    exact List.forall_mem_append.mpr ⟨h.after, List.forall_mem_singleton.mpr hspares⟩

/-- Nothing grows ahead of a check that began without placeholders: only the root of the externs
gets a child, and the walk has begun there. -/
theorem not_growsAhead (hp : p.Holds plots) (hlinked : p.store.Linked) (sanity : Bool) :
    ¬GrowsAhead p.store (p.store.order (Walk.depthBound p) Program.roots)
      (Walk.visits (variableNames sanity) p Program.roots none) := by
  have hrooted := rooted_roots hp hlinked
  have hready : Ready p plots none := ⟨hp, nofun⟩
  have hstart : Sparing p.store p ((none : Repairs), []) :=
    ⟨⟨⟨plots, hready⟩, hlinked, List.forall_mem_nil _⟩, fun _ _ _ => id, Nat.le_refl _, nofun,
      List.forall_mem_nil _⟩
  have hafter : ∀ v ∈ Walk.visits (variableNames sanity) p Program.roots none,
      Spares p.store v.after := ((alike_sparing p.store sanity).roots hstart).fine.after
  rintro ⟨front, v, rest, hlog, n, hn, hfresh, hgrown⟩
  have hdepth := Nat.le_of_lt (Walk.size_lt_depthBound p)
  have hthere := hrooted.isSome_get? ((hrooted.mem_order hdepth).mp hn)
  by_cases hroot : n = Program.externsRoot
  · subst hroot
    have htrail := Walk.trail (variableNames sanity) (Walk.depthBound p) p Program.roots none
    rw [show Walk.visitsTo _ _ p Program.roots none = _ from hlog] at htrail
    cases front with
    | nil => exact hfresh v List.mem_cons_self (htrail.above_head hthere v rfl)
    | cons w front => exact hfresh w List.mem_cons_self (htrail.above_head hthere w rfl)
  · exact hgrown ((hafter v (hlog ▸ by simp)).children hroot hthere)

/-- In every session: a check that begins without placeholders visits the nodes that were there at
the start, each once and in postorder, up to where it stops, and none of its placeholders. -/
theorem visits_fresh (levels : Levels) (actions : List Action) (sanity : Bool) :
    let p := externs (Session.after levels actions).program (some Program.externsRoot)
    let tree := p.store.order (Walk.depthBound p) Program.roots
    let walk := Walk.roots (variableNames sanity) p (Program.roots.map some) none
    let nodes := (Walk.visits (variableNames sanity) p Program.roots none).map Visited.node
    run sanity none (Session.after levels actions).program = .ofWalk walk ∧ nodes <+: tree ∧
      (walk.error? = none → nodes = tree) := by
  intro p tree walk nodes
  obtain ⟨plots, hs⟩ := Session.formed levels actions
  have hready : Ready p plots none := by
    rw [show p = _ from externs_eq hs.checkable.holds]
    exact hs.checkable.toReady.withBag _
  have hlinked : p.store.Linked := by
    rw [show p = _ from externs_eq hs.checkable.holds]
    exact hs.linked
  have hrooted := rooted_roots hready.holds hlinked
  have happends := hready.appends hlinked sanity
  exact ⟨rfl, Walk.visits_of_not_growsAhead hrooted (Nat.le_of_lt (Walk.size_lt_depthBound p))
    happends (not_growsAhead hready.holds hlinked sanity)⟩

end Check

namespace Walk

variable {ε σ : Type}

/-- Whatever a visitor appends, the walk visits the trees of the start in postorder, up to where it
stops. It visits nothing else exactly if nothing grows ahead of it. This holds for any depth to
which the walk may go, so trees of any height may be appended. -/
theorem visits_appending (visit : Visitor ε σ) (depth : Nat) (p : Program) (ids : List NodeId)
    (own : σ) (hrooted : p.store.Rooted ids) (hdepth : p.store.size < depth)
    (happ : ∀ v ∈ visitsTo visit depth p ids own, v.Appends) :
    let tree := p.store.order depth ids
    let visits := visitsTo visit depth p ids own
    let nodes := visits.map Visited.node
    let error := (rootsTo visit depth p ids own).error?
    (∀ n, n ∈ tree ↔ p.store.InTree ids n) ∧ tree.Nodup ∧ nodes.filter (· ∈ tree) <+: tree ∧
      (¬GrowsAhead p.store tree visits → nodes <+: tree) ∧
      (error = none → nodes.filter (· ∈ tree) = tree ∧
        (nodes = tree ↔ ¬GrowsAhead p.store tree visits)) := by
  intro tree visits nodes error
  have hsize := Nat.le_of_lt hdepth
  have htree : ∀ n, n ∈ tree ↔ p.store.InTree ids n := fun _ => hrooted.mem_order hsize
  obtain ⟨hfront, hwhole⟩ := filter_visits hrooted hsize happ
  refine ⟨htree, hrooted.nodup_order hsize, hfront,
    fun hgrows => (visits_of_not_growsAhead hrooted hsize happ hgrows).1,
    fun herror => ⟨hwhole herror, ?_, fun hgrows =>
      (visits_of_not_growsAhead hrooted hsize happ hgrows).2 herror⟩⟩
  intro hsame hgrows
  have htrail := trail visit depth p ids own
  rw [show (rootsTo visit depth p ids own).error? = none from herror] at htrail
  obtain ⟨v, hv, hout⟩ := Trail.exists_not_mem hrooted htree htrail happ
    (fun root hroot => List.mem_map_of_mem hroot) hdepth hgrows
  have hmem : v.node ∈ nodes := List.mem_map_of_mem hv
  rw [hsame] at hmem
  exact hout hmem

/-- A check that makes the script of its placeholders puts them where the walk has been. -/
theorem visits_repair :
    let p := (Check.Session.after Levels.none
      [.edit (.addExtern "e.js" "var e;"), .edit (.addSource "a.js" "e; x;" none)]).program
    let tree := p.store.order (depthBound p) Program.roots
    let visits := visits (Check.variableNames false) p Program.roots none
    (p.store.Rooted Program.roots ∧ p.store.size < depthBound p ∧ ∀ v ∈ visits, v.Appends) ∧
      visits.map Visited.node = [2, 3, 4, 0, 5, 6, 7, 8, 9, 1] ∧
      visits.map Visited.node = tree ∧ ¬GrowsAhead p.store tree visits := by
  intro p tree visits
  obtain ⟨plots, hs⟩ := Check.Session.formed Levels.none
    [.edit (.addExtern "e.js" "var e;"), .edit (.addSource "a.js" "e; x;" none)]
  have hready := hs.checkable.toReady
  have hrooted := Check.rooted_roots hready.holds hs.linked
  have happends := hready.appends hs.linked false
  have hdepth := size_lt_depthBound p
  have hwalk := visits_appending (Check.variableNames false) (depthBound p) p Program.roots none
    hrooted hdepth happends
  have herror : (roots (Check.variableNames false) p (Program.roots.map some) none).error? =
      none := by decide +kernel
  have hnodes : visits.map Visited.node = tree := by decide +kernel
  exact ⟨⟨hrooted, hdepth, happends⟩, by decide +kernel, hnodes,
    (hwalk.2.2.2.2 herror).2.mp hnodes⟩

/-- A check whose script of placeholders was made before puts a placeholder where the walk has yet
to go, and visits it: the nodes 6 and 7 were not there at the start. -/
theorem visits_placeholder :
    let made := Placeholders.create
      (Check.Session.after Levels.none [.edit (.addExtern "e.js" "y;")]).program
    let p := made.1
    let visits := visits (Check.variableNames false) p Program.roots (some made.2)
    p.store.Rooted Program.roots ∧ (∀ v ∈ visits, v.Appends) ∧
      p.store.order (depthBound p) Program.roots = [2, 3, 4, 5, 0, 1] ∧
      visits.map Visited.node = [2, 3, 4, 6, 7, 5, 0, 1] := by
  intro made p visits
  obtain ⟨plots, hs⟩ := Check.Session.formed Levels.none [.edit (.addExtern "e.js" "y;")]
  obtain ⟨after, hready⟩ := Check.ready_create hs.checkable.holds
  have hlinked : p.store.Linked :=
    Program.linked_newExtern hs.linked (hs.checkable.holds.root_lt (.inl rfl)) _
  exact ⟨Check.rooted_roots hready.holds hlinked, hready.appends hlinked false, by decide +kernel,
    by decide +kernel⟩

end Walk

end RefCheck
