import Mathlib.Data.Fintype.Card
import Mathlib.Logic.Relation
import RefCheck.Proofs.Scope.Declaring
import RefCheck.Proofs.Script.Links

/-!
# Trees below roots, in postorder

Where the links of a store agree, the nodes below some roots without a parent form one tree for each
root. The postorder lists each node of a tree once, children before their parents and from left to
right (`mem_order`, `nodup_order`, `pairwise_order`). A store that widens keeps these trees: what it
lists in addition stands in none of them.
-/

namespace RefCheck.Script.NodeStore

variable {s t : NodeStore} {roots : List NodeId} {a b c d n m root : NodeId} {depth : Nat}

theorem follow_append (s : NodeStore) (id : Option NodeId) (front rest : List Nat) :
    s.follow id (front ++ rest) = s.follow (s.follow id front) rest := by
  induction front generalizing id with
  | nil => rfl
  | cons step front ih => exact ih _

theorem follow_of_mem (h : some c ∈ s.children (some n)) :
    ∃ step, s.follow (some n) [step] = some c := by
  obtain ⟨step, hstep⟩ := List.mem_iff_getElem?.mp h
  refine ⟨step, ?_⟩
  rw [follow, hstep]
  rfl

theorem above_iff_follow : s.Above a b ↔ ∃ path, s.follow (some a) path = some b := by
  constructor
  · intro h
    induction h with
    | refl => exact ⟨[], rfl⟩
    | tail _ hlisted ih =>
      obtain ⟨path, hpath⟩ := ih
      obtain ⟨step, hstep⟩ := follow_of_mem hlisted
      exact ⟨path ++ [step], by rw [follow_append, hpath, hstep]⟩
  · rintro ⟨path, hpath⟩
    induction path generalizing a with
    | nil => exact Option.some.inj hpath ▸ .refl a
    | cons step rest ih =>
      rw [follow] at hpath
      cases hnext : (s.children (some a))[step]?.join with
      | none =>
        rw [hnext, follow_none] at hpath
        cases hpath
      | some c =>
        rw [hnext] at hpath
        have hlisted : some c ∈ s.children (some a) :=
          List.mem_of_getElem? (Option.join_eq_some_iff.mp hnext)
        exact .head hlisted (ih hpath)

/-- A step down from a node at or below another one. -/
theorem Above.listed (h : s.Above a b) (hc : some c ∈ s.children (some b)) : s.Above a c :=
  Relation.ReflTransGen.tail h hc

/-- No way down from a node is so long. -/
def Shallow (s : NodeStore) (depth : Nat) (n : NodeId) : Prop :=
  ∀ path m, s.follow (some n) path = some m → path.length < depth

theorem Shallow.pos (h : s.Shallow depth n) : 0 < depth := h [] n rfl

theorem Shallow.child (h : s.Shallow (depth + 1) n) (hc : some c ∈ s.children (some n)) :
    s.Shallow depth c := by
  intro path m hpath
  obtain ⟨step, hstep⟩ := follow_of_mem hc
  have hway : s.follow (some n) (step :: path) = some m := by
    rw [← List.singleton_append, follow_append, hstep, hpath]
  have hlength := h (step :: path) m hway
  rw [List.length_cons] at hlength
  omega

theorem Shallow.mono {more : Nat} (h : s.Shallow depth n) (hle : depth ≤ more) :
    s.Shallow more n := by
  intro path m hpath
  have hlength := h path m hpath
  omega

/-- A node stands at or below one that has no parent. -/
def Anchored (s : NodeStore) (n : NodeId) : Prop :=
  ∃ top, (s.get? (some top)).isSome ∧ s.parent (some top) = none ∧ s.Above top n

theorem Anchored.above (h : s.Anchored a) (hb : s.Above a b) : s.Anchored b := by
  obtain ⟨top, hthere, hfree, habove⟩ := h
  exact ⟨top, hthere, hfree, habove.trans hb⟩

/-- The links agree, and the roots are different nodes of some trees, none of them below another
one. -/
structure Rooted (s : NodeStore) (roots : List NodeId) : Prop where
  linked : s.Linked
  anchored : ∀ root ∈ roots, s.Anchored root
  distinct : roots.Nodup
  apart : ∀ a ∈ roots, ∀ b ∈ roots, s.Above a b → a = b

/-- A node is a root or stands below one. -/
def InTree (s : NodeStore) (roots : List NodeId) (n : NodeId) : Prop :=
  ∃ root ∈ roots, s.Above root n

theorem InTree.child (h : s.InTree roots n) (hc : some c ∈ s.children (some n)) :
    s.InTree roots c := by
  obtain ⟨root, hroot, habove⟩ := h
  exact ⟨root, hroot, habove.listed hc⟩

theorem inTree_root (h : root ∈ roots) : s.InTree roots root := ⟨root, h, .refl root⟩

namespace Linked

theorem isSome_anchored (h : s.Linked) (hn : s.Anchored n) : (s.get? (some n)).isSome := by
  obtain ⟨top, hthere, -, habove⟩ := hn
  cases habove with
  | refl => exact hthere
  | @tail above _ _ hlisted =>
    obtain ⟨step, hstep⟩ := follow_of_mem hlisted
    obtain ⟨_, node, hsame, hnode, hchild⟩ := mem_children_of_step hstep
    obtain ⟨below, hbelow, -⟩ := (h _ node (hsame ▸ hnode)).child _ (List.mem_of_getElem? hchild)
    rw [hbelow]
    rfl

/-- There is only one way down from a node to another one. -/
theorem way_unique (h : s.Linked) (hn : s.Anchored n) {path path' : List Nat}
    (hpath : s.follow (some n) path = some m) (hpath' : s.follow (some n) path' = some m) :
    path = path' := by
  obtain ⟨top, -, hfree, habove⟩ := hn
  obtain ⟨front, hfront⟩ := above_iff_follow.mp habove
  have hway : s.follow (some top) (front ++ path) = some m := by
    rw [follow_append, hfront, hpath]
  have hway' : s.follow (some top) (front ++ path') = some m := by
    rw [follow_append, hfront, hpath']
  exact List.append_cancel_left (h.follow_inj hfree hfree hway hway').2

/-- Nothing stands below two children of a node. -/
theorem apart_children (h : s.Linked) (hn : s.Anchored n) (hc : some c ∈ s.children (some n))
    (hd : some d ∈ s.children (some n)) (hne : c ≠ d) (hm : s.Above c m) : ¬s.Above d m := by
  intro hm'
  obtain ⟨step, hstep⟩ := follow_of_mem hc
  obtain ⟨step', hstep'⟩ := follow_of_mem hd
  obtain ⟨path, hpath⟩ := above_iff_follow.mp hm
  obtain ⟨path', hpath'⟩ := above_iff_follow.mp hm'
  have hway : s.follow (some n) ([step] ++ path) = some m := by
    rw [follow_append, hstep, hpath]
  have hway' : s.follow (some n) ([step'] ++ path') = some m := by
    rw [follow_append, hstep', hpath']
  obtain rfl : step = step' := (List.cons.inj (h.way_unique hn hway hway')).1
  exact hne (Option.some.inj (hstep.symm.trans hstep'))

theorem apart_listed (h : s.Linked) (hn : s.Anchored n) :
    (s.children (some n)).Pairwise fun a b =>
      ∀ c ∈ a, ∀ d ∈ b, ∀ m, s.Above c m → ¬s.Above d m := by
  obtain ⟨node, hnode⟩ := Option.isSome_iff_exists.mp (h.isSome_anchored hn)
  have honce : (s.children (some n)).Nodup := by
    rw [children, hnode]
    exact (h n node hnode).once
  refine honce.imp_of_mem ?_
  rintro a b ha hb hne c rfl d rfl m hc
  exact h.apart_children hn ha hb (fun hcd => hne (congrArg some hcd)) hc

/-- No node stands below itself. -/
theorem not_above (h : s.Linked) (hn : s.Anchored n) (hc : some c ∈ s.children (some n)) :
    ¬s.Above c n := by
  intro hback
  obtain ⟨step, hstep⟩ := follow_of_mem hc
  obtain ⟨path, hpath⟩ := above_iff_follow.mp hback
  have hway : s.follow (some n) ([step] ++ path) = some n := by
    rw [follow_append, hstep, hpath]
  have hstay : s.follow (some n) [] = some n := rfl
  cases h.way_unique hn hway hstay

/-- No way down passes more nodes than there are. -/
theorem shallow (h : s.Linked) (hn : s.Anchored n) : s.Shallow s.size n := by
  intro path m hpath
  -- The nodes on the way are different, since each is reached in one way.
  let passed := fun k : Fin (path.length + 1) => s.follow (some n) (path.take k)
  have hpassed : ∀ k, ∃ c, passed k = some c ∧ c < s.size := by
    intro k
    have hsplit := follow_append s (some n) (path.take k) (path.drop k)
    rw [List.take_append_drop, hpath] at hsplit
    cases hnode : passed k with
    | none =>
      rw [show s.follow (some n) (path.take k) = none from hnode, follow_none] at hsplit
      cases hsplit
    | some c =>
      have hc := hn.above (above_iff_follow.mpr ⟨_, hnode⟩)
      obtain ⟨node, hget⟩ := Option.isSome_iff_exists.mp (h.isSome_anchored hc)
      exact ⟨c, rfl, lt_of_get? hget⟩
  choose node hnode hlt using hpassed
  have hinj : Function.Injective fun k => (⟨node k, hlt k⟩ : Fin s.size) := by
    intro i j hij
    have hsame : node i = node j := congrArg Fin.val hij
    have hlength := congrArg List.length (h.way_unique hn (hnode i) (hsame ▸ hnode j))
    rw [List.length_take, List.length_take] at hlength
    omega
  have hcard := Fintype.card_le_of_injective _ hinj
  rw [Fintype.card_fin, Fintype.card_fin] at hcard
  omega

/-- Different nodes without a parent are the roots of different trees. -/
theorem rooted (h : s.Linked) (hthere : ∀ root ∈ roots, (s.get? (some root)).isSome)
    (hfree : ∀ root ∈ roots, s.parent (some root) = none) (hdistinct : roots.Nodup) :
    s.Rooted roots where
  linked := h
  anchored root hroot := ⟨root, hthere root hroot, hfree root hroot, .refl root⟩
  distinct := hdistinct
  apart a ha b hb habove := by
    obtain ⟨path, hpath⟩ := above_iff_follow.mp habove
    have hself : s.follow (some b) [] = some b := rfl
    exact (h.follow_inj (hfree a ha) (hfree b hb) hpath hself).1

end Linked

namespace Rooted

theorem anchored_of_inTree (h : s.Rooted roots) (hn : s.InTree roots n) : s.Anchored n := by
  obtain ⟨root, hroot, habove⟩ := hn
  exact (h.anchored root hroot).above habove

theorem isSome_get? (h : s.Rooted roots) (hn : s.InTree roots n) : (s.get? (some n)).isSome :=
  h.linked.isSome_anchored (h.anchored_of_inTree hn)

/-- Nothing stands below two roots. -/
theorem apart_roots (h : s.Rooted roots) (ha : a ∈ roots) (hb : b ∈ roots) (hne : a ≠ b)
    (hm : s.Above a m) : ¬s.Above b m := by
  intro hm'
  obtain ⟨top, -, hfree, htop⟩ := h.anchored a ha
  obtain ⟨top', -, hfree', htop'⟩ := h.anchored b hb
  obtain ⟨front, hfront⟩ := above_iff_follow.mp htop
  obtain ⟨front', hfront'⟩ := above_iff_follow.mp htop'
  obtain ⟨path, hpath⟩ := above_iff_follow.mp hm
  obtain ⟨path', hpath'⟩ := above_iff_follow.mp hm'
  have hway : s.follow (some top) (front ++ path) = some m := by
    rw [follow_append, hfront, hpath]
  have hway' : s.follow (some top') (front' ++ path') = some m := by
    rw [follow_append, hfront', hpath']
  -- Both ways are the same one, so one of the roots is passed on the way to the other one.
  obtain ⟨rfl, hsame⟩ := h.linked.follow_inj hfree hfree' hway hway'
  rcases List.append_eq_append_iff.mp hsame with ⟨between, rfl, -⟩ | ⟨between, rfl, -⟩
  · rw [follow_append, hfront] at hfront'
    exact hne (h.apart a ha b hb (above_iff_follow.mpr ⟨between, hfront'⟩))
  · rw [follow_append, hfront'] at hfront
    exact hne (h.apart b hb a ha (above_iff_follow.mpr ⟨between, hfront⟩)).symm

end Rooted

/-- Nodes stay as they are, but may get more children behind those that they have. -/
def Widens (s t : NodeStore) : Prop :=
  ∀ (n : NodeId) node, s.get? (some n) = some node →
    ∃ more, t.get? (some n) = some { node with children := node.children ++ more }

theorem Widens.refl (s : NodeStore) : s.Widens s :=
  fun n node hnode => ⟨[], by rw [hnode, List.append_nil]⟩

theorem Widens.trans {u : NodeStore} (hst : s.Widens t) (htu : t.Widens u) : s.Widens u := by
  intro n node hnode
  obtain ⟨more, hmore⟩ := hst n node hnode
  obtain ⟨further, hfurther⟩ := htu n _ hmore
  exact ⟨more ++ further, by rw [hfurther, List.append_assoc]⟩

theorem Widens.isSome (h : s.Widens t) (hn : (s.get? (some n)).isSome) :
    (t.get? (some n)).isSome := by
  obtain ⟨node, hnode⟩ := Option.isSome_iff_exists.mp hn
  obtain ⟨more, hmore⟩ := h n node hnode
  rw [hmore]
  rfl

theorem Widens.parent (h : s.Widens t) (hn : (s.get? (some n)).isSome) :
    t.parent (some n) = s.parent (some n) := by
  obtain ⟨node, hnode⟩ := Option.isSome_iff_exists.mp hn
  obtain ⟨more, hmore⟩ := h n node hnode
  rw [NodeStore.parent, NodeStore.parent, hnode, hmore]
  rfl

theorem Widens.children (h : s.Widens t) (hn : (s.get? (some n)).isSome) :
    s.children (some n) <+: t.children (some n) := by
  obtain ⟨node, hnode⟩ := Option.isSome_iff_exists.mp hn
  obtain ⟨more, hmore⟩ := h n node hnode
  rw [NodeStore.children, NodeStore.children, hnode, hmore]
  exact ⟨more, rfl⟩

namespace Linked

/-- A node of a tree is listed in a wider store only where it was listed. -/
theorem listed_of_widened (h : s.Linked) (hw : s.Widens t) (ht : t.Linked) (hc : s.Anchored c)
    (hlisted : some c ∈ t.children (some n)) : some c ∈ s.children (some n) ∧ s.Anchored n := by
  have hparent : s.parent (some c) = some n := by
    rw [← hw.parent (h.isSome_anchored hc)]
    exact ht.parent_of_mem hlisted
  obtain ⟨top, hthere, hfree, hway⟩ := hc
  cases hway with
  | refl =>
    rw [hfree] at hparent
    cases hparent
  | @tail above _ hway hlists =>
    have hsame : s.parent (some c) = some above := h.parent_of_mem hlists
    obtain rfl : n = above := Option.some.inj (hparent.symm.trans hsame)
    exact ⟨hlists, top, hthere, hfree, hway⟩

/-- Above a node of a tree there is only what was above it, even when the store has widened. -/
theorem above_of_widened (h : s.Linked) (hw : s.Widens t) (ht : t.Linked) (hm : s.Anchored m)
    (hc : t.Above c m) : s.Anchored c ∧ s.Above c m := by
  induction hc with
  | refl => exact ⟨hm, .refl c⟩
  | tail _ hlisted ih =>
    obtain ⟨hlists, habove⟩ := h.listed_of_widened hw ht hm hlisted
    obtain ⟨hin, hc⟩ := ih habove
    exact ⟨hin, hc.listed hlists⟩

/-- What a node lists in addition stands in no tree. -/
theorem not_anchored_of_more (h : s.Linked) (hw : s.Widens t) (ht : t.Linked)
    {more : List (Option NodeId)} (hn : (s.get? (some n)).isSome)
    (hmore : t.children (some n) = s.children (some n) ++ more) (hc : some c ∈ more) :
    ¬s.Anchored c := by
  intro hin
  have hlisted : some c ∈ t.children (some n) := hmore ▸ List.mem_append_right _ hc
  have hold := (h.listed_of_widened hw ht hin hlisted).1
  obtain ⟨node, hnode⟩ := Option.isSome_iff_exists.mp (hw.isSome hn)
  have honce : (t.children (some n)).Nodup := by
    rw [children, hnode]
    exact (ht n node hnode).once
  rw [hmore] at honce
  exact (List.nodup_append.mp honce).2.2 _ hold _ hc rfl

end Linked

/-- The nodes at and below a node, children before their parents, at most so deep. -/
def postorder (s : NodeStore) : (depth : Nat) → Option NodeId → List NodeId
  | 0, _ | _, none => []
  | depth + 1, some n =>
    if (s.get? (some n)).isSome then (s.children (some n)).flatMap (s.postorder depth) ++ [n]
    else []

/-- The nodes of the trees below some roots. -/
def order (s : NodeStore) (depth : Nat) (roots : List NodeId) : List NodeId :=
  roots.flatMap fun root => s.postorder depth (some root)

/-- One node comes before another one: it stands below it, or further left. -/
def Earlier (s : NodeStore) (a b : NodeId) : Prop := (a ≠ b ∧ s.Above b a) ∨ s.Precedes a b

theorem postorder_succ (hn : (s.get? (some n)).isSome) :
    s.postorder (depth + 1) (some n) =
      (s.children (some n)).flatMap (s.postorder depth) ++ [n] := if_pos hn

theorem postorder_none (s : NodeStore) (depth : Nat) : s.postorder depth none = [] := by
  cases depth <;> rfl

theorem above_of_mem_postorder (h : m ∈ s.postorder depth (some n)) : s.Above n m := by
  induction depth generalizing n with
  | zero => cases h
  | succ depth ih =>
    rw [postorder] at h
    split at h
    · rcases List.mem_append.mp h with h | h
      · obtain ⟨child, hchild, hm⟩ := List.mem_flatMap.mp h
        cases child with
        | none =>
          rw [postorder_none] at hm
          cases hm
        | some c => exact .head hchild (ih hm)
      · obtain rfl := List.mem_singleton.mp h
        exact .refl m
    · cases h

namespace Rooted

theorem mem_postorder (h : s.Rooted roots) (hn : s.InTree roots n) (hdeep : s.Shallow depth n) :
    m ∈ s.postorder depth (some n) ↔ s.Above n m := by
  constructor
  · exact above_of_mem_postorder
  · intro habove
    induction depth generalizing n with
    | zero => exact absurd hdeep.pos (Nat.lt_irrefl 0)
    | succ depth ih =>
      rw [postorder_succ (h.isSome_get? hn)]
      rcases Relation.ReflTransGen.cases_head habove with rfl | ⟨c, hc, hbelow⟩
      · exact List.mem_append_right _ (List.mem_singleton_self n)
      · have hm := ih (hn.child hc) (hdeep.child hc) hbelow
        exact List.mem_append_left _ (List.mem_flatMap.mpr ⟨some c, hc, hm⟩)

theorem pairwise_postorder (h : s.Rooted roots) (hn : s.InTree roots n) (depth : Nat) :
    (s.postorder depth (some n)).Pairwise s.Earlier := by
  induction depth generalizing n with
  | zero => exact List.Pairwise.nil
  | succ depth ih =>
    have hchild : ∀ {child a}, child ∈ s.children (some n) → a ∈ s.postorder depth child →
        ∃ c, child = some c ∧ s.Above c a := by
      intro child a hmem ha
      cases child with
      | none =>
        rw [postorder_none] at ha
        cases ha
      | some c => exact ⟨c, rfl, above_of_mem_postorder ha⟩
    rw [postorder_succ (h.isSome_get? hn), List.pairwise_append]
    refine ⟨?_, List.pairwise_singleton _ _, ?_⟩
    · rw [List.pairwise_flatMap]
      constructor
      · intro child hmem
        cases child with
        | none =>
          rw [postorder_none]
          exact List.Pairwise.nil
        | some c => exact ih (hn.child hmem)
      · rw [List.pairwise_iff_forall_sublist]
        intro first second hpair a ha b hb
        have hfirst := hpair.subset List.mem_cons_self
        have hsecond := hpair.subset (List.mem_cons_of_mem _ List.mem_cons_self)
        obtain ⟨c, rfl, hca⟩ := hchild hfirst ha
        obtain ⟨d, rfl, hdb⟩ := hchild hsecond hb
        exact .inr ⟨n, c, d, hpair, hca, hdb⟩
    · intro a ha b hb
      obtain rfl := List.mem_singleton.mp hb
      obtain ⟨child, hmem, ha⟩ := List.mem_flatMap.mp ha
      obtain ⟨c, rfl, hca⟩ := hchild hmem ha
      left
      constructor
      · rintro rfl
        exact h.linked.not_above (h.anchored_of_inTree hn) hmem hca
      · exact .head hmem hca

theorem mem_order (h : s.Rooted roots) (hdepth : s.size ≤ depth) :
    n ∈ s.order depth roots ↔ s.InTree roots n := by
  simp only [order, List.mem_flatMap, InTree]
  constructor
  · rintro ⟨root, hroot, hn⟩
    exact ⟨root, hroot, above_of_mem_postorder hn⟩
  · rintro ⟨root, hroot, hn⟩
    have hshallow := (h.linked.shallow (h.anchored root hroot)).mono hdepth
    exact ⟨root, hroot, (h.mem_postorder (inTree_root hroot) hshallow).mpr hn⟩

/-- Trees come in the order of the roots, and the nodes of each one in postorder. -/
theorem pairwise_order (h : s.Rooted roots) (depth : Nat) :
    (s.order depth roots).Pairwise fun a b => s.Earlier a b ∨
      ∃ root root', [root, root'].Sublist roots ∧ s.Above root a ∧ s.Above root' b := by
  rw [order, List.pairwise_flatMap]
  constructor
  · intro root hroot
    exact (h.pairwise_postorder (inTree_root hroot) depth).imp .inl
  · rw [List.pairwise_iff_forall_sublist]
    intro root root' hpair a ha b hb
    exact .inr ⟨root, root', hpair, above_of_mem_postorder ha, above_of_mem_postorder hb⟩

theorem nodup_order (h : s.Rooted roots) (hdepth : s.size ≤ depth) :
    (s.order depth roots).Nodup := by
  refine (h.pairwise_order depth).imp_of_mem ?_
  rintro a b ha - hearlier rfl
  have hin := (h.mem_order hdepth).mp ha
  rcases hearlier with (⟨hne, -⟩ | ⟨n, c, d, hpair, hc, hd⟩) |
    ⟨root, root', hpair, hroot, hroot'⟩
  · exact hne rfl
  · have hfirst := hpair.subset List.mem_cons_self
    have hsecond := hpair.subset (List.mem_cons_of_mem _ List.mem_cons_self)
    have ha := h.anchored_of_inTree hin
    have hn := (h.linked.above_of_widened (.refl s) h.linked ha (.head hfirst hc)).1
    obtain ⟨node, hnode⟩ := Option.isSome_iff_exists.mp (h.linked.isSome_anchored hn)
    have honce : (s.children (some n)).Nodup := by
      rw [children, hnode]
      exact (h.linked n node hnode).once
    have hne : c ≠ d := by
      rintro rfl
      simpa using hpair.nodup honce
    exact h.linked.apart_children hn hfirst hsecond hne hc hd
  · have hfirst := hpair.subset List.mem_cons_self
    have hsecond := hpair.subset (List.mem_cons_of_mem _ List.mem_cons_self)
    have hne : root ≠ root' := by
      rintro rfl
      simpa using hpair.nodup h.distinct
    exact h.apart_roots hfirst hsecond hne hroot hroot'

end Rooted

end RefCheck.Script.NodeStore
