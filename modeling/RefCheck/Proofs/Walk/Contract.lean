import RefCheck.Proofs.Walk.Appending
import RefCheck.Proofs.Walk.Touring

/-!
# What every walk keeps to

A visitor that leaves the program alone is shown all nodes below the roots in postorder, up to the
one at which it stops, each in the scopes of the functions around it. Every function that is entered
gets one scope.
-/

namespace RefCheck

open RefCheck.Script RefCheck.Script.NodeStore

variable {ε σ : Type}

/-- What a walk of some roots keeps to, with the visits that it makes. -/
structure Walk.Contract (visit : Visitor ε σ) (p : Program) (ids : List NodeId) (own : σ) :
    Prop where
  /-- Writing the visits down changes nothing. -/
  same : (roots visit p (ids.map some) own).Follows (fun t logged => logged.plain = t)
    (roots visit.logged p (ids.map some) (own, []))
  /-- At each visit the visitor was asked, in a program that has not changed. -/
  asked : ∀ v ∈ visits visit p ids own,
    v.outcome = visit v.place v.before ∧ v.before.program = p
  /-- The order has each node that can be reached from the roots once. -/
  reached : ∀ n, n ∈ p.store.order (depthBound p) ids ↔ p.store.InTree ids n
  once : (p.store.order (depthBound p) ids).Nodup
  /-- The order is that of the roots, and below each of them children come before their parents and
  from left to right. -/
  ordered : (p.store.order (depthBound p) ids).Pairwise fun a b => p.store.Earlier a b ∨
    ∃ root root', [root, root'].Sublist ids ∧ p.store.Above root a ∧ p.store.Above root' b
  /-- The visits are the order, or what there is of it up to the visit that stopped the walk. -/
  nodes : (visits visit p ids own).map Visited.node <+: p.store.order (depthBound p) ids
  whole : (roots visit p (ids.map some) own).error? = none →
    (visits visit p ids own).map Visited.node = p.store.order (depthBound p) ids
  ends : EndsAt (roots visit p (ids.map some) own).error? (visits visit p ids own)
  /-- Around each visit are the scopes of the functions around its node, the nearest first, and then
  the global one. -/
  scopes : ∀ v ∈ visits visit p ids own, ∃ functions, p.store.Within v.node functions ∧
    v.place.scopes.length = 1 + functions.length ∧
    v.before.scopes.enclosing v.place.scope = v.place.scopes ∧
    v.place.scopes.map v.before.scopes.root? = functions.map some ++ [ids.head?] ∧
    v.place.globalScope = some 0 ∧ v.before.scopes.isGlobal (some 0)
  /-- Scopes stay where they are. -/
  stays : ∀ v ∈ visits visit p ids own,
    v.before.scopes.layout <+: (roots visit p (ids.map some) own).state.scopes.layout
  /-- Besides the global scope, there is one for each function in which something was visited: for
  each one that was visited itself, and if the walk goes on to the end, only for these. -/
  made : ∃ made : List NodeId,
    (roots visit p (ids.map some) own).state.scopes.layout.map Prod.snd =
      ids.head? :: made.map some ∧
    made.Nodup ∧
    (∀ f, f ∈ made ↔ ∃ v ∈ visits visit p ids own, p.store.Encloses f v.node) ∧
    (∀ v ∈ visits visit p ids own, p.store.kind? (some v.node) = some .function →
      v.node ∈ made) ∧
    ((roots visit p (ids.map some) own).error? = none →
      made.Perm ((p.store.order (depthBound p) ids).filter fun n =>
        p.store.kind? (some n) = some .function))

section Contract

variable {visit : Visitor ε σ} {p : Program} {ids : List NodeId}

theorem Walk.layout_start (p : Program) (ids : List NodeId) (own : σ) :
    (start p (ids.map some) own).scopes.layout = [(none, ids.head?)] := by
  rw [start, ScopeTable.layout_pushGlobal, List.head?_map]
  cases ids.head? <;> rfl

/-- The walks of the roots are pieces that are apart. -/
theorem Visitor.ReadOnly.tours_roots (hvisit : visit.ReadOnly) (hregular : p.store.Regular ids)
    (own : σ) :
    ∃ made, Tours p ids.head? (p.store.InTree ids)
      (Walk.start p (ids.map some) (own, ([] : List (Visited ε σ))))
      (Walk.roots visit.logged p (ids.map some) (own, [])) (Walk.visits visit p ids own) made := by
  have hrooted := hregular.toRooted
  have hpieces : ∃ log made, Tours p ids.head? (fun m => ∃ id ∈ ids.map some, ∃ root ∈ id,
      p.store.Above root m) (Walk.start p (ids.map some) (own, []))
      (Walk.roots visit.logged p (ids.map some) (own, [])) log made := by
    refine Tours.each ?_ ?_ rfl
    · intro id hid t ht hst
      obtain ⟨root, hroot, rfl⟩ := List.mem_map.mp hid
      have hglobal : t.scopes.layout[0]? = some (none, ids.head?) := by
        obtain ⟨more, hmore⟩ := hst
        rw [← hmore, Walk.layout_start]
        rfl
      have hshallow := (hrooted.linked.shallow (hrooted.anchored root hroot)).mono
        (Nat.le_of_lt (Walk.size_lt_depthBound p))
      obtain ⟨log, made, hwalk⟩ := hvisit.touring hregular (Walk.depthBound p) root none none [0] []
        t ht (inTree_root hroot) hshallow (fun hkind => absurd hkind (hregular.plain root hroot))
        (hrooted.linked.within_free (hregular.free root hroot)) (.outermost hglobal)
      exact ⟨log, made, hwalk.mono fun m hm => ⟨root, rfl, hm⟩⟩
    · refine List.pairwise_map.mpr (hrooted.distinct.imp_of_mem ?_)
      rintro a b ha hb hne m ⟨c, hc, hcm⟩ ⟨d, hd, hdm⟩
      obtain rfl : a = c := Option.some.inj hc
      obtain rfl : b = d := Option.some.inj hd
      exact hrooted.apart_roots ha hb hne hcm hdm
  obtain ⟨log, made, hwalk⟩ := hpieces
  have hlog : Walk.visits visit p ids own = log := hwalk.logged
  refine ⟨made, hlog ▸ hwalk.mono ?_⟩
  rintro m ⟨id, hid, root, hroot, hm⟩
  obtain ⟨other, hother, rfl⟩ := List.mem_map.mp hid
  exact ⟨root, Option.some.inj hroot ▸ hother, hm⟩

/-- If no visit changes the program, then nothing grows ahead. -/
theorem Walk.visits_of_fixed (hrooted : p.store.Rooted ids) {own : σ}
    (hfixed : ∀ v ∈ visits visit p ids own, v.before.program = p ∧ v.after = p.store) :
    (visits visit p ids own).map Visited.node <+: p.store.order (depthBound p) ids ∧
      ((roots visit p (ids.map some) own).error? = none →
        (visits visit p ids own).map Visited.node = p.store.order (depthBound p) ids) := by
  refine visits_of_not_growsAhead hrooted (Nat.le_of_lt (size_lt_depthBound p)) ?_ ?_
  · intro v hv
    obtain ⟨hbefore, hafter⟩ := hfixed v hv
    constructor
    · rw [hbefore, hafter]
      exact .refl _
    · rw [hafter]
      exact hrooted.linked
  · rintro ⟨front, v, rest, hlog, n, -, -, hgrown⟩
    have hv : v ∈ visits visit p ids own := by
      rw [show visits visit p ids own = _ from hlog]
      simp
    exact hgrown (by rw [(hfixed v hv).2])

/-- Walks with such a visitor keep to the contract. -/
theorem Visitor.ReadOnly.contract (hvisit : visit.ReadOnly) (hregular : p.store.Regular ids)
    (own : σ) : Walk.Contract visit p ids own := by
  have hrooted := hregular.toRooted
  have hdepth := Nat.le_of_lt (Walk.size_lt_depthBound p)
  have hfollows := Walk.roots_follows visit (Walk.depthBound p) p ids own
  have htrail := Walk.trail visit (Walk.depthBound p) p ids own
  obtain ⟨made, htours⟩ := hvisit.tours_roots hregular own
  have hfixed := htours.before_after hvisit htrail.outcome
  obtain ⟨hfront, hwhole⟩ := Walk.visits_of_fixed hrooted hfixed
  have hscopes : (Walk.roots visit p (ids.map some) own).state.scopes =
      (Walk.roots visit.logged p (ids.map some) (own, [])).state.scopes :=
    congrArg WalkState.scopes hfollows.state.symm
  refine ⟨hfollows, fun v hv => ⟨htrail.outcome v hv, (hfixed v hv).1⟩,
    fun _ => hrooted.mem_order hdepth, hrooted.nodup_order hdepth, hrooted.pairwise_order _,
    hfront, hwhole, htrail.endsAt, ?_, ?_, ?_⟩
  · intro v hv
    obtain ⟨functions, hwithin, hnests⟩ := htours.sees v hv
    refine ⟨functions, hwithin, hnests.length_eq, hnests.enclosing_eq, hnests.map_root?,
      hnests.getLast?_eq, ?_⟩
    exact ScopeTable.isGlobal_of_layout hnests.global
  · intro v hv
    rw [hscopes]
    exact (htours.before v hv).2
  · obtain ⟨functions, hlayout, hnodup, hregion, hmem, hown⟩ :=
      htours.exists_made (Walk.layout_start p ids _)
    refine ⟨functions, hscopes ▸ hlayout, hnodup, hmem, hown, fun herror => ?_⟩
    refine (List.perm_ext_iff_of_nodup hnodup ((hrooted.nodup_order hdepth).filter _)).mpr ?_
    intro f
    rw [List.mem_filter, decide_eq_true_eq]
    constructor
    · intro hf
      obtain ⟨v, hv, hencloses⟩ := (hmem f).mp hf
      exact ⟨(hrooted.mem_order hdepth).mpr (hregion f hf), hencloses.1⟩
    · rintro ⟨hf, hkind⟩
      rw [← hwhole herror] at hf
      obtain ⟨v, hv, rfl⟩ := List.mem_map.mp hf
      exact hown v hv hkind

end Contract

end RefCheck
