import RefCheck.Proofs.Walk.Logged

/-!
# Visitors that append

A visitor may hang new trees below nodes while the walk goes on. The nodes that were below the roots
at the start are visited all the same, each once and in postorder. Whether a node that was appended
is visited depends on where it was hung: below a node that the walk has come to, it is not, since
the children of that node have been read; below a node that the walk has yet to come to, it is.
-/

namespace RefCheck

open RefCheck.Script RefCheck.Script.NodeStore

variable {ε σ : Type}

/-- A visit appends if it changes no node but for more children, and the links still agree. -/
structure Visited.Appends (v : Visited ε σ) : Prop where
  widens : v.before.program.store.Widens v.after
  linked : v.after.Linked

theorem Visited.Of.widens {visit : Visitor ε σ} {n : NodeId} {s : NodeStore} {v : Visited ε σ}
    (h : v.Of visit n s) (happ : v.Appends) : s.Widens v.after := h.store ▸ happ.widens

/-- After some visit a node of a tree has got children, although neither the node nor any node below
it has been visited: the walk has yet to come to it. -/
def GrowsAhead (s : NodeStore) (tree : List NodeId) (log : List (Visited ε σ)) : Prop :=
  ∃ front v rest, log = front ++ v :: rest ∧ ∃ n ∈ tree,
    (∀ w ∈ front ++ [v], ¬s.Above n w.node) ∧ v.after.children (some n) ≠ s.children (some n)

theorem GrowsAhead.append {s : NodeStore} {tree : List NodeId} {log : List (Visited ε σ)}
    (h : GrowsAhead s tree log) (more : List (Visited ε σ)) : GrowsAhead s tree (log ++ more) := by
  obtain ⟨front, v, rest, rfl, hgrown⟩ := h
  exact ⟨front, v, rest ++ more, by simp, hgrown⟩

theorem GrowsAhead.of_front {s : NodeStore} {tree : List NodeId}
    {past log more : List (Visited ε σ)}
    (h : GrowsAhead s tree (past ++ log)) : GrowsAhead s tree (past ++ (log ++ more)) := by
  rw [← List.append_assoc]
  exact h.append more

namespace Trail

variable {visit : Visitor ε σ} {depth : Nat} {ids : List (Option NodeId)} {s t u : NodeStore}
  {log : List (Visited ε σ)} {e : Option ε} {roots tree : List NodeId} {n m : NodeId}

/-- The store only widens, from visit to visit. -/
theorem widens (h : Trail visit depth ids t log u e) (happ : ∀ v ∈ log, v.Appends)
    (ht : t.Linked) :
    u.Linked ∧ t.Widens u ∧ ∀ v ∈ log, t.Widens v.after ∧ v.after.Widens u := by
  induction h with
  | done => exact ⟨ht, .refl _, fun _ hv => nomatch hv⟩
  | skip _ _ ih => exact ih happ ht
  | inside _ _ ih => exact ih happ ht
  | @visit _ _ _ s below u v log t _ _ _ hof _ _ ihbelow ihrest =>
    obtain ⟨hbelow, happv⟩ := List.forall_mem_append.mp happ
    obtain ⟨hv, hrest⟩ := List.forall_mem_cons.mp happv
    obtain ⟨hu, hsu, hmid⟩ := ihbelow hbelow ht
    obtain ⟨hend, hvt, hlog⟩ := ihrest hrest hv.linked
    have huv := hof.widens hv
    refine ⟨hend, hsu.trans (huv.trans hvt), ?_⟩
    intro w hw
    rcases List.mem_append.mp hw with hw | hw
    · exact ⟨(hmid w hw).1, (hmid w hw).2.trans (huv.trans hvt)⟩
    · rcases List.mem_cons.mp hw with rfl | hw
      · exact ⟨hsu.trans huv, hvt⟩
      · exact ⟨hsu.trans (huv.trans (hlog w hw).1), (hlog w hw).2⟩
  | @stop _ _ _ s below u v _ _ _ hof _ ihbelow =>
    obtain ⟨hbelow, happv⟩ := List.forall_mem_append.mp happ
    have hv := List.forall_mem_singleton.mp happv
    obtain ⟨hu, hsu, hmid⟩ := ihbelow hbelow ht
    have huv := hof.widens hv
    refine ⟨hv.linked, hsu.trans huv, ?_⟩
    intro w hw
    rcases List.mem_append.mp hw with hw | hw
    · exact ⟨(hmid w hw).1, (hmid w hw).2.trans huv⟩
    · obtain rfl := List.mem_singleton.mp hw
      exact ⟨hsu.trans huv, .refl _⟩

/-- The part of the postorder at a node that is in the trees. -/
def kept (s : NodeStore) (tree : List NodeId) (depth : Nat) (id : Option NodeId) : List NodeId :=
  (s.postorder depth id).filter (· ∈ tree)

/-- No node of the trees stands at or below the node. -/
def Out (s : NodeStore) (roots : List NodeId) (n : NodeId) : Prop :=
  ∀ m, s.InTree roots m → ¬s.Above n m

/-- Each of these nodes is in the trees or has nothing to do with them. -/
def InOrOut (s : NodeStore) (roots : List NodeId) (ids : List (Option NodeId)) : Prop :=
  ∀ n, some n ∈ ids → s.InTree roots n ∨ Out s roots n

theorem InOrOut.tail {id : Option NodeId} (h : InOrOut s roots (id :: ids)) :
    InOrOut s roots ids := fun n hn => h n (List.mem_cons_of_mem _ hn)

section Start

variable (hs : s.Rooted roots)

include hs

theorem out_of_not_anchored (hn : ¬s.Anchored n) : Out s roots n := by
  intro m hm habove
  have hanchored := hs.anchored_of_inTree hm
  exact hn (hs.linked.above_of_widened (.refl s) hs.linked hanchored habove).1

theorem Out.listed (h : Out s roots n) (hw : s.Widens t) (ht : t.Linked)
    (hm : some m ∈ t.children (some n)) : Out s roots m := by
  by_cases hanchored : s.Anchored m
  · have hlisted := (hs.linked.listed_of_widened hw ht hanchored hm).1
    exact fun x hx habove => h x hx (.head hlisted habove)
  · exact out_of_not_anchored hs hanchored

/-- What such nodes list is in the trees or has nothing to do with them either, however the store
has widened. -/
theorem InOrOut.children (h : InOrOut s roots (some n :: ids)) (hw : s.Widens t) (ht : t.Linked) :
    InOrOut s roots (t.children (some n)) := by
  intro c hc
  rcases h n List.mem_cons_self with hn | hn
  · by_cases hanchored : s.Anchored c
    · exact .inl (hn.child (hs.linked.listed_of_widened hw ht hanchored hc).1)
    · exact .inr (out_of_not_anchored hs hanchored)
  · exact .inr (hn.listed hs hw ht hc)

omit hs in
theorem flatMap_kept_of_out (htree : ∀ n, n ∈ tree ↔ s.InTree roots n)
    (h : ∀ n, some n ∈ ids → Out s roots n) (depth : Nat) :
    ids.flatMap (kept s tree depth) = [] := by
  rw [List.flatMap_eq_nil_iff]
  intro id hid
  rw [kept, List.filter_eq_nil_iff]
  intro m hm hmem
  cases id with
  | none =>
    rw [postorder_none] at hm
    cases hm
  | some n => exact h n hid m ((htree m).mp (of_decide_eq_true hmem)) (above_of_mem_postorder hm)

variable (htree : ∀ n, n ∈ tree ↔ s.InTree roots n)

include htree

omit hs in
theorem kept_of_out (hn : Out s roots n) (depth : Nat) : kept s tree depth (some n) = [] := by
  have hone : ∀ m, some m ∈ [some n] → Out s roots m := by
    intro m hm
    rwa [Option.some.inj (List.mem_singleton.mp hm)]
  rw [← flatMap_kept_of_out htree hone depth, List.flatMap_singleton]

/-- What is not there has no part in the trees. -/
theorem kept_of_absent {id : Option NodeId} (hids : InOrOut s roots (id :: ids)) (hw : s.Widens t)
    (h : t.get? id = none ∨ depth = 0) : kept s tree depth id = [] := by
  cases id with
  | none => rw [kept, postorder_none, List.filter_nil]
  | some n =>
    rcases h with h | rfl
    · rcases hids n List.mem_cons_self with hn | hn
      · have hsome := hw.isSome (hs.isSome_get? hn)
        rw [h] at hsome
        cases hsome
      · exact kept_of_out htree hn depth
    · rfl

/-- What a wider store lists in addition has no part in the trees either. -/
theorem kept_succ (hids : InOrOut s roots (some n :: ids)) (hw : s.Widens t) (ht : t.Linked) :
    kept s tree (depth + 1) (some n) =
      (t.children (some n)).flatMap (kept s tree depth) ++ (if n ∈ tree then [n] else []) := by
  rcases hids n List.mem_cons_self with hin | hout
  · have hmem := (htree n).mpr hin
    have hthere := hs.isSome_get? hin
    obtain ⟨more, hmore⟩ := hw.children hthere
    have hnone : more.flatMap (kept s tree depth) = [] := by
      refine flatMap_kept_of_out htree (fun c hc => out_of_not_anchored hs ?_) depth
      exact hs.linked.not_anchored_of_more hw ht hthere hmore.symm hc
    rw [if_pos hmem, ← hmore, List.flatMap_append, hnone, List.append_nil, kept,
      postorder_succ hthere, List.filter_append, List.filter_flatMap]
    simp only [hmem, decide_true, List.filter_cons_of_pos, List.filter_nil]
    rfl
  · have hmem : n ∉ tree := fun hn => hout n ((htree n).mp hn) (.refl n)
    have hnone := flatMap_kept_of_out htree (fun c hc => hout.listed hs hw ht hc) depth
    rw [if_neg hmem, hnone, kept_of_out htree hout]
    rfl

/-- The nodes of the trees are visited in postorder, and all of them if the walk does not stop. -/
theorem filter_nodes (h : Trail visit depth ids t log u e) (happ : ∀ v ∈ log, v.Appends)
    (hids : InOrOut s roots ids) (hw : s.Widens t) (ht : t.Linked) :
    ∃ left, (log.map Visited.node).filter (· ∈ tree) ++ left =
        ids.flatMap (kept s tree depth) ∧ (e = none → left = []) := by
  have hself : ∀ v : Visited ε σ, [v.node].filter (· ∈ tree) =
      if v.node ∈ tree then [v.node] else [] := by
    intro v
    by_cases hv : v.node ∈ tree <;> simp [hv]
  induction h with
  | done => exact ⟨[], rfl, fun _ => rfl⟩
  | skip habsent _ ih =>
    rw [List.flatMap_cons, kept_of_absent hs htree hids hw habsent]
    exact ih happ hids.tail hw ht
  | @inside depth n rest _ _ _ _ _ _ ih =>
    obtain ⟨left, hleft, -⟩ := ih happ (hids.children hs hw ht) hw ht
    rw [List.flatMap_cons, kept_succ hs htree hids hw ht, ← hleft, List.append_assoc,
      List.append_assoc]
    exact ⟨_, rfl, nofun⟩
  | @visit _ n _ t below u v log _ _ _ hbelow hof _ hrest ihbelow ihrest =>
    obtain ⟨happbelow, happv⟩ := List.forall_mem_append.mp happ
    obtain ⟨hv, happrest⟩ := List.forall_mem_cons.mp happv
    obtain ⟨hu, htu, -⟩ := hbelow.widens happbelow ht
    have huv := hof.widens hv
    obtain ⟨none, hdone, hnone⟩ := ihbelow happbelow (hids.children hs hw ht) hw ht
    obtain rfl := hnone rfl
    obtain ⟨left, hleft, hend⟩ :=
      ihrest happrest hids.tail (hw.trans (htu.trans huv)) hv.linked
    refine ⟨left, ?_, hend⟩
    rw [List.flatMap_cons, kept_succ hs htree hids hw ht, ← hdone, ← hleft, ← hof.node, ← hself]
    simp only [List.map_append, List.map_cons, List.filter_append, List.append_nil,
      List.append_assoc, List.append_cancel_left_eq]
    rw [← List.append_assoc, ← List.filter_append]
    rfl
  | @stop _ n _ t below u v _ _ hbelow hof _ ihbelow =>
    obtain ⟨happbelow, happv⟩ := List.forall_mem_append.mp happ
    have hv := List.forall_mem_singleton.mp happv
    obtain ⟨none, hdone, hnone⟩ := ihbelow happbelow (hids.children hs hw ht) hw ht
    obtain rfl := hnone rfl
    have hlast : ((below ++ [v]).map Visited.node).filter (· ∈ tree) =
        (below.map Visited.node).filter (· ∈ tree) ++ [v.node].filter (· ∈ tree) := by
      rw [List.map_append, List.filter_append]
      rfl
    rw [List.flatMap_cons, kept_succ hs htree hids hw ht, ← hdone, ← hof.node, ← hself,
      List.append_nil, hlast]
    exact ⟨_, rfl, nofun⟩

/-- What is visited of the trees is at or below a node that was walked. -/
theorem exists_above (h : Trail visit depth ids t log u e) (happ : ∀ v ∈ log, v.Appends)
    (hids : InOrOut s roots ids) (hw : s.Widens t) (ht : t.Linked) {v : Visited ε σ} (hv : v ∈ log)
    (hmem : v.node ∈ tree) : ∃ n, some n ∈ ids ∧ s.Above n v.node := by
  obtain ⟨left, hleft, -⟩ := filter_nodes hs htree h happ hids hw ht
  have hkept : v.node ∈ ids.flatMap (kept s tree depth) := by
    rw [← hleft]
    refine List.mem_append_left _ (List.mem_filter.mpr ⟨List.mem_map_of_mem hv, ?_⟩)
    exact decide_eq_true hmem
  obtain ⟨id, hid, hin⟩ := List.mem_flatMap.mp hkept
  have hpost := (List.mem_filter.mp hin).1
  cases id with
  | none =>
    rw [postorder_none] at hpost
    cases hpost
  | some n => exact ⟨n, hid, above_of_mem_postorder hpost⟩

end Start

/-- The walk has yet to come to these nodes: they are apart, in the trees, and nothing at or below
them has been visited. Only what has been visited may have got children. -/
structure Ahead (s : NodeStore) (tree : List NodeId) (past : List (Visited ε σ)) (t : NodeStore)
    (ids : List (Option NodeId)) : Prop where
  mem : ∀ n, some n ∈ ids → n ∈ tree
  fresh : ∀ n, some n ∈ ids → ∀ w ∈ past, ¬s.Above n w.node
  apart : ids.Pairwise fun a b => ∀ n ∈ a, ∀ m ∈ b, ∀ x, s.Above n x → ¬s.Above m x
  same : ∀ n ∈ tree, (∀ w ∈ past, ¬s.Above n w.node) → t.children (some n) = s.children (some n)

namespace Ahead

variable {past seen : List (Visited ε σ)} {id : Option NodeId} {rest : List (Option NodeId)}

theorem tail (h : Ahead s tree past t (id :: rest)) : Ahead s tree past t rest where
  mem n hn := h.mem n (List.mem_cons_of_mem _ hn)
  fresh n hn := h.fresh n (List.mem_cons_of_mem _ hn)
  apart := (List.pairwise_cons.mp h.apart).2
  same := h.same

theorem children (h : Ahead s tree past t (some n :: rest)) :
    t.children (some n) = s.children (some n) :=
  h.same n (h.mem n List.mem_cons_self) (h.fresh n List.mem_cons_self)

/-- Nor has it come to what these nodes list. -/
theorem below (h : Ahead s tree past t (some n :: rest)) (hs : s.Rooted roots)
    (htree : ∀ n, n ∈ tree ↔ s.InTree roots n) : Ahead s tree past t (t.children (some n)) := by
  have hn := (htree n).mp (h.mem n List.mem_cons_self)
  rw [h.children]
  constructor
  · intro c hc
    exact (htree c).mpr (hn.child hc)
  · intro c hc w hw habove
    exact h.fresh n List.mem_cons_self w hw (.head hc habove)
  · exact hs.linked.apart_listed (hs.anchored_of_inTree hn)
  · exact h.same

/-- After a visit to the first node the walk has yet to come to the others. -/
theorem after {v : Visited ε σ} (h : Ahead s tree past t (some n :: rest))
    (hseen : ∀ w ∈ seen, s.Above n w.node) (hv : v.node = n)
    (hahead : ¬GrowsAhead s tree (past ++ (seen ++ v :: log))) :
    Ahead s tree (past ++ (seen ++ [v])) v.after rest := by
  constructor
  · exact h.tail.mem
  · intro m hm w hw
    have hapart := (List.pairwise_cons.mp h.apart).1 (some m) hm n rfl m rfl w.node
    rcases List.mem_append.mp hw with hw | hw
    · exact h.tail.fresh m hm w hw
    · rcases List.mem_append.mp hw with hw | hw
      · exact hapart (hseen w hw)
      · obtain rfl := List.mem_singleton.mp hw
        exact hapart (hv ▸ .refl _)
  · exact h.tail.apart
  · intro m hm hfresh
    by_contra hgrown
    refine hahead ⟨past ++ seen, v, log, by simp, m, hm, ?_, hgrown⟩
    rw [List.append_assoc]
    exact hfresh

end Ahead

/-- If nothing grows ahead of a walk of the trees, it does not leave them. -/
theorem nodes_mem (hs : s.Rooted roots) (htree : ∀ n, n ∈ tree ↔ s.InTree roots n)
    (h : Trail visit depth ids t log u e) (happ : ∀ v ∈ log, v.Appends) (hw : s.Widens t)
    (ht : t.Linked) (past : List (Visited ε σ)) (hgrows : ¬GrowsAhead s tree (past ++ log))
    (hahead : Ahead s tree past t ids) : ∀ v ∈ log, v.node ∈ tree := by
  induction h generalizing past with
  | done => exact fun v hv => nomatch hv
  | skip _ _ ih => exact ih happ hw ht past hgrows hahead.tail
  | inside _ _ ih => exact ih happ hw ht past hgrows (hahead.below hs htree)
  | @visit depth n rest t below u v log t' e _ hbelow hof _ hrest ihbelow ihrest =>
    obtain ⟨happbelow, happv⟩ := List.forall_mem_append.mp happ
    obtain ⟨hv, happrest⟩ := List.forall_mem_cons.mp happv
    have hmem := ihbelow happbelow hw ht past (fun h => hgrows h.of_front) (hahead.below hs htree)
    have hin : InOrOut s roots (some n :: rest) := by
      intro m hm
      exact .inl ((htree m).mp (hahead.mem m hm))
    have habove : ∀ w ∈ below, s.Above n w.node := by
      intro w hw'
      obtain ⟨c, hc, habove⟩ := exists_above hs htree hbelow happbelow
        (hin.children hs hw ht) hw ht hw' (hmem w hw')
      exact .head (hahead.children ▸ hc) habove
    have hafter := hahead.after habove hof.node hgrows
    obtain ⟨hu, htu, -⟩ := hbelow.widens happbelow ht
    have huv := hof.widens hv
    have hsplit : past ++ (below ++ v :: log) = past ++ (below ++ [v]) ++ log := by simp
    rw [hsplit] at hgrows
    have hmem' := ihrest happrest (hw.trans (htu.trans huv)) hv.linked _ hgrows hafter
    intro w hw'
    rcases List.mem_append.mp hw' with hw' | hw'
    · exact hmem w hw'
    · rcases List.mem_cons.mp hw' with rfl | hw'
      · exact hof.node ▸ hahead.mem n List.mem_cons_self
      · exact hmem' w hw'
  | @stop depth n rest t below u v e _ hbelow hof _ ihbelow =>
    obtain ⟨happbelow, -⟩ := List.forall_mem_append.mp happ
    have hmem := ihbelow happbelow hw ht past (fun h => hgrows h.of_front) (hahead.below hs htree)
    intro w hw'
    rcases List.mem_append.mp hw' with hw' | hw'
    · exact hmem w hw'
    · obtain rfl := List.mem_singleton.mp hw'
      exact hof.node ▸ hahead.mem n List.mem_cons_self

/-- A walk that does not stop visits what it is to walk, if that is there. -/
theorem exists_visit (h : Trail visit depth ids t log u e) (hon : e = none)
    (happ : ∀ v ∈ log, v.Appends) (ht : t.Linked) (hn : some n ∈ ids)
    (hthere : (t.get? (some n)).isSome) (hdepth : 0 < depth) : ∃ v ∈ log, v.node = n := by
  induction h with
  | done => cases hn
  | @skip depth id rest t log u e habsent _ ih =>
    rcases List.mem_cons.mp hn with rfl | hn
    · rcases habsent with habsent | rfl
      · rw [habsent] at hthere
        cases hthere
      · cases hdepth
    · exact ih hon happ ht hn hthere hdepth
  | @visit depth n' rest t seen u v log t' e _ hbelow hof _ _ _ ihrest =>
    obtain ⟨happbelow, happv⟩ := List.forall_mem_append.mp happ
    obtain ⟨hv, happrest⟩ := List.forall_mem_cons.mp happv
    rcases List.mem_cons.mp hn with hsame | hn
    · exact ⟨v, by simp, hof.node.trans (Option.some.inj hsame).symm⟩
    · have huv := hof.widens hv
      have hafter := ((hbelow.widens happbelow ht).2.1.trans huv).isSome hthere
      obtain ⟨w, hw, hnode⟩ := ihrest hon happrest hv.linked hn hafter hdepth
      exact ⟨w, by simp [hw], hnode⟩
  | stop => cases hon
  | inside => cases hon

/-- The log of a walk, cut where the walk comes to a node. It reads the children of the node `here`,
after all the visits of the `past`, and still has a level left for them. -/
inductive Arrival (visit : Visitor ε σ) (t : NodeStore) (m : NodeId) (log : List (Visited ε σ)) :
    Prop
  | mk {past seen rest : List (Visited ε σ)} {v : Visited ε σ} {here mid : NodeStore} {depth : Nat}
      (split : log = past ++ (seen ++ v :: rest)) (node : v.node = m) (linked : here.Linked)
      (wider : t.Widens here) (later : ∀ w ∈ past, w.after.Widens here) (deep : 0 < depth)
      (below : Trail visit depth (here.children (some m)) here seen mid none)

theorem Arrival.append (h : Arrival visit t m log) (more : List (Visited ε σ)) :
    Arrival visit t m (log ++ more) := by
  obtain ⟨rfl, hnode, hlinked, hwider, hlater, hdeep, hbelow⟩ := h
  rw [List.append_assoc, List.append_assoc, List.cons_append]
  exact .mk rfl hnode hlinked hwider hlater hdeep hbelow

theorem Arrival.behind {front : List (Visited ε σ)} (h : Arrival visit u m log)
    (hwider : t.Widens u) (hfront : ∀ w ∈ front, w.after.Widens u) :
    Arrival visit t m (front ++ log) := by
  obtain ⟨rfl, hnode, hlinked, hu, hlater, hdeep, hbelow⟩ := h
  rw [← List.append_assoc]
  refine .mk rfl hnode hlinked (hwider.trans hu) ?_ hdeep hbelow
  intro w hw
  rcases List.mem_append.mp hw with hw | hw
  · exact (hfront w hw).trans hu
  · exact hlater w hw

/-- A walk that does not stop comes to all nodes of the trees that it walks. -/
theorem exists_arrival (hs : s.Rooted roots) (h : Trail visit depth ids t log u e) (hon : e = none)
    (happ : ∀ v ∈ log, v.Appends) (hw : s.Widens t) (ht : t.Linked) (hn : some n ∈ ids)
    (hin : s.InTree roots n) (hdeep : s.Shallow (depth - 1) n) (habove : s.Above n m) :
    Arrival visit t m log := by
  induction h generalizing n with
  | done => cases hn
  | @skip depth id rest t log u e habsent _ ih =>
    rcases List.mem_cons.mp hn with rfl | hn
    · rcases habsent with habsent | rfl
      · have hthere := hw.isSome (hs.isSome_get? hin)
        rw [habsent] at hthere
        cases hthere
      · exact absurd hdeep.pos (by omega)
    · exact ih hon happ hw ht hn hin hdeep habove
  | @visit depth n' rest t seen u v log t' e _ hbelow hof _ _ ihbelow ihrest =>
    obtain ⟨happbelow, happv⟩ := List.forall_mem_append.mp happ
    obtain ⟨hv, happrest⟩ := List.forall_mem_cons.mp happv
    rcases List.mem_cons.mp hn with hsame | hn
    · obtain rfl := Option.some.inj hsame
      rcases Relation.ReflTransGen.cases_head habove with rfl | ⟨c, hc, hcm⟩
      · have hnone : ∀ w ∈ ([] : List (Visited ε σ)), w.after.Widens t := nofun
        exact .mk rfl hof.node ht (.refl t) hnone hdeep.pos hbelow
      · have hlisted := (hw.children (hs.isSome_get? hin)).subset hc
        obtain ⟨k, rfl⟩ := Nat.exists_eq_succ_of_ne_zero hdeep.pos.ne'
        have hbelow := ihbelow rfl happbelow hw ht hlisted (hin.child hc) (hdeep.child hc) hcm
        exact hbelow.append (v :: log)
    · have huv := hof.widens hv
      obtain ⟨-, htu, hmid⟩ := hbelow.widens happbelow ht
      have hrest := ihrest hon happrest (hw.trans (htu.trans huv)) hv.linked hn hin hdeep habove
      rw [List.append_cons]
      refine hrest.behind (htu.trans huv) ?_
      intro w hw
      rcases List.mem_append.mp hw with hw | hw
      · exact (hmid w hw).2.trans huv
      · obtain rfl := List.mem_singleton.mp hw
        exact .refl _
  | stop => cases hon
  | inside => cases hon

/-- A node that has got children lists one that is new. -/
theorem exists_new_child (hs : s.Linked) (hn : (s.get? (some n)).isSome) (hw : s.Widens t)
    (ht : t.Linked) (hgrown : t.children (some n) ≠ s.children (some n)) :
    ∃ c, some c ∈ t.children (some n) ∧ (t.get? (some c)).isSome ∧ ¬s.Anchored c := by
  obtain ⟨node, hnode⟩ := Option.isSome_iff_exists.mp (hw.isSome hn)
  have hchildren : t.children (some n) = node.children := by
    rw [NodeStore.children, hnode]
    rfl
  obtain ⟨more, hmore⟩ := hw.children hn
  cases more with
  | nil => exact absurd (hmore.symm.trans (List.append_nil _)) hgrown
  | cons child rest =>
    have hlisted : child ∈ t.children (some n) := hmore ▸ by simp
    obtain ⟨below, hbelow, -⟩ := (ht n node hnode).child child (hchildren ▸ hlisted)
    cases child with
    | none => cases hbelow
    | some c =>
      have hnew := hs.not_anchored_of_more hw ht hn hmore.symm List.mem_cons_self
      exact ⟨c, hlisted, by rw [hbelow]; rfl, hnew⟩

/-- What comes before an item in one cut of a list comes before the next item of another cut that is
not there yet. -/
theorem mem_of_cut {α : Type} {front rest past more : List α} {v w : α}
    (h : front ++ v :: rest = past ++ w :: more) (hw : w ∉ front ++ [v]) : v ∈ past := by
  rcases List.append_eq_append_iff.mp h with ⟨between, rfl, hrest⟩ | ⟨between, rfl, hrest⟩
  · cases between with
    | nil =>
      obtain ⟨rfl, -⟩ := List.cons.inj hrest
      simp at hw
    | cons x between =>
      obtain ⟨rfl, -⟩ := List.cons.inj hrest
      simp
  · cases between with
    | nil =>
      obtain ⟨rfl, -⟩ := List.cons.inj hrest
      simp at hw
    | cons x between =>
      obtain ⟨rfl, -⟩ := List.cons.inj hrest
      simp at hw

/-- If something grows ahead of a walk that does not stop, then it leaves the trees. -/
theorem exists_not_mem (hs : s.Rooted roots) (htree : ∀ n, n ∈ tree ↔ s.InTree roots n)
    (h : Trail visit depth ids s log u none) (happ : ∀ v ∈ log, v.Appends)
    (hroots : ∀ root ∈ roots, some root ∈ ids) (hdeep : s.size < depth)
    (hgrows : GrowsAhead s tree log) : ∃ v ∈ log, v.node ∉ tree := by
  by_contra hall
  push Not at hall
  obtain ⟨front, v, rest, hlog, n, hn, hfresh, hgrown⟩ := hgrows
  have hin := (htree n).mp hn
  have hthere := hs.isSome_get? hin
  have harrival : Arrival visit s n log := by
    obtain ⟨root, hroot, habove⟩ := hin
    have hshallow := (hs.linked.shallow (hs.anchored root hroot)).mono (Nat.le_sub_one_of_lt hdeep)
    exact exists_arrival hs h rfl happ (.refl s) hs.linked (hroots root hroot) (inTree_root hroot)
      hshallow habove
  obtain @⟨past, seen, more, w, here, mid, k, rfl, hw, hlinked, hwider, hlater, hpos, hbelow⟩ :=
    harrival
  have happseen : ∀ x ∈ seen, x.Appends := by
    intro x hx
    exact happ x (by simp [hx])
  -- All that is visited between the arrival at the node and the visit to it is below it.
  have hseen : ∀ x ∈ seen, s.Above n x.node := by
    intro x hx
    have hmem := hall x (by simp [hx])
    have hone : InOrOut s roots [some n] := by
      intro m hm
      exact .inl (Option.some.inj (List.mem_singleton.mp hm) ▸ hin)
    obtain ⟨c, hc, habove⟩ := exists_above hs htree hbelow happseen
      (hone.children hs hwider hlinked) hwider hlinked hx hmem
    have hanchored := hs.anchored_of_inTree ((htree _).mp hmem)
    have hcin := (hs.linked.above_of_widened (.refl s) hs.linked hanchored habove).1
    exact .head (hs.linked.listed_of_widened hwider hlinked hcin hc).1 habove
  -- So the children came before that, and the walk has found them there.
  have hpast : v ∈ past := by
    cases seen with
    | nil =>
      refine mem_of_cut hlog.symm fun hmem => hfresh w hmem ?_
      exact hw ▸ .refl _
    | cons x seen =>
      exact mem_of_cut hlog.symm fun hmem => hfresh x hmem (hseen x List.mem_cons_self)
  have hv : v ∈ past ++ (seen ++ w :: more) := List.mem_append_left _ hpast
  obtain ⟨-, -, hwidens⟩ := h.widens happ hs.linked
  have hafter := (hwidens v hv).1
  obtain ⟨c, hc, hcthere, hnew⟩ :=
    exists_new_child hs.linked hthere hafter (happ v hv).linked hgrown
  have hfound := ((hlater v hpast).children (hafter.isSome hthere)).subset hc
  obtain ⟨x, hx, hxc⟩ := exists_visit hbelow rfl happseen hlinked hfound
    ((hlater v hpast).isSome hcthere) hpos
  have hmem := hall x (by simp [hx])
  exact hnew (hxc ▸ hs.anchored_of_inTree ((htree _).mp hmem))

end Trail

namespace Walk

variable {s : NodeStore} {roots tree : List NodeId}

theorem inTree_of_mem_map {n : NodeId} (h : some n ∈ roots.map some) : s.InTree roots n := by
  obtain ⟨root, hroot, hsame⟩ := List.mem_map.mp h
  exact Option.some.inj hsame ▸ inTree_root hroot

theorem flatMap_kept (s : NodeStore) (tree : List NodeId) (depth : Nat) (roots : List NodeId) :
    (roots.map some).flatMap (Trail.kept s tree depth) =
      (s.order depth roots).filter (· ∈ tree) := by
  rw [List.flatMap_map, order, List.filter_flatMap]
  rfl

theorem ahead_roots (hs : s.Rooted roots) (htree : ∀ n, n ∈ tree ↔ s.InTree roots n) :
    Trail.Ahead s tree ([] : List (Visited ε σ)) s (roots.map some) := by
  constructor
  · exact fun n hn => (htree n).mpr (inTree_of_mem_map hn)
  · exact fun n hn w hw => nomatch hw
  · refine List.pairwise_map.mpr (hs.distinct.imp_of_mem ?_)
    intro a b ha hb hne n hn m hm x hx
    obtain rfl : a = n := Option.some.inj hn
    obtain rfl : b = m := Option.some.inj hm
    exact hs.apart_roots ha hb hne hx
  · exact fun n hn hfresh => rfl

section Visits

variable {visit : Visitor ε σ} {depth : Nat} {p : Program} {ids : List NodeId} {own : σ}

theorem size_lt_depthBound (p : Program) : p.store.size < depthBound p := by
  rw [depthBound]
  omega

/-- The trees of the start are visited in postorder, up to where the walk stops. -/
theorem filter_visits (hrooted : p.store.Rooted ids) (hdepth : p.store.size ≤ depth)
    (happ : ∀ v ∈ visitsTo visit depth p ids own, v.Appends) :
    let tree := p.store.order depth ids
    let nodes := (visitsTo visit depth p ids own).map Visited.node
    nodes.filter (· ∈ tree) <+: tree ∧
      ((rootsTo visit depth p ids own).error? = none → nodes.filter (· ∈ tree) = tree) := by
  intro tree nodes
  obtain ⟨left, hleft, hend⟩ := Trail.filter_nodes hrooted (fun _ => hrooted.mem_order hdepth)
    (trail visit depth p ids own) happ (fun n hn => .inl (inTree_of_mem_map hn)) (.refl _)
    hrooted.linked
  rw [flatMap_kept, List.filter_eq_self.mpr fun n hn => decide_eq_true hn] at hleft
  refine ⟨⟨left, hleft⟩, fun herror => ?_⟩
  rw [hend herror, List.append_nil] at hleft
  exact hleft

/-- If nothing grows ahead of the walk, then nothing else is visited. -/
theorem visits_of_not_growsAhead (hrooted : p.store.Rooted ids) (hdepth : p.store.size ≤ depth)
    (happ : ∀ v ∈ visitsTo visit depth p ids own, v.Appends)
    (hgrows : ¬GrowsAhead p.store (p.store.order depth ids) (visitsTo visit depth p ids own)) :
    (visitsTo visit depth p ids own).map Visited.node <+: p.store.order depth ids ∧
      ((rootsTo visit depth p ids own).error? = none →
        (visitsTo visit depth p ids own).map Visited.node = p.store.order depth ids) := by
  have htree : ∀ n, n ∈ p.store.order depth ids ↔ p.store.InTree ids n :=
    fun _ => hrooted.mem_order hdepth
  have hall : ((visitsTo visit depth p ids own).map Visited.node).filter
      (· ∈ p.store.order depth ids) = (visitsTo visit depth p ids own).map Visited.node := by
    refine List.filter_eq_self.mpr fun n hn => decide_eq_true ?_
    obtain ⟨v, hv, rfl⟩ := List.mem_map.mp hn
    exact Trail.nodes_mem hrooted htree (trail visit depth p ids own) happ (.refl _)
      hrooted.linked [] hgrows (ahead_roots hrooted htree) v hv
  rw [← hall]
  exact filter_visits hrooted hdepth happ

end Visits

end Walk

end RefCheck
