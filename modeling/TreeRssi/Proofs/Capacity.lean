/-
Module: TreeRssi.Proofs.Capacity
Layer: Proofs
Purpose: Tables that stay inside a given one. A table whose entries and edges all belong to a table
  within the bounds has room for every further edge of it, in any order, so `Add_child` drops none; and
  its serialised text is no longer.
Imports: TreeRssi.Proofs.ControlMessages, TreeRssi.Proofs.Search, Mathlib (sublists up to order)
Trusted boundary: none
Main exports: Within, Within.addChild, Within.mergeRecv, fullText_length_le
Open obligations: none
-/
import Mathlib.Algebra.GroupWithZero.Nat
import Mathlib.Algebra.Order.BigOperators.Group.List
import Mathlib.Algebra.Order.Group.Nat
import Mathlib.Data.List.Perm.Subperm
import TreeRssi.Proofs.ControlMessages
import TreeRssi.Proofs.Search

namespace TreeRssi

open CText

variable {s t : RoutingTree}

/-- Two entries of one id are the same entry. -/
theorem EntriesNodup.unique (nodup : EntriesNodup t) {node node' : TreeNode} (member : node ∈ t)
    (member' : node' ∈ t) (same : node.id = node'.id) : node = node' :=
  List.inj_on_of_nodup_map nodup member member' same

/-- The table `s` has entries and edges of `t` only. -/
structure Within (t s : RoutingTree) : Prop where
  ok : TableOk s
  edges : ∀ p c, HasEdge s p c → HasEdge t p c
  entries : ∀ node ∈ s, ∃ node' ∈ t, node'.id = node.id

namespace Within

/-- The children of an entry are children of the entry of `t`. -/
theorem children (within : Within t s) (okT : TableOk t) {node node' : TreeNode} (member : node ∈ s)
    (member' : node' ∈ t) (same : node'.id = node.id) : node.children ⊆ node'.children := by
  intro c listed
  obtain ⟨node'', member'', own, listed'⟩ := within.edges node.id c ⟨node, member, rfl, listed⟩
  cases okT.ids.unique member'' member' (own.trans same.symm)
  exact listed'

/-- An entry that lacks a child of `t` has room for it: with it, it has no more than that of `t`. -/
theorem entry_room (within : Within t s) (okT : TableOk t) {node : TreeNode} (member : node ∈ s)
    {c : UInt8} (edge : HasEdge t node.id c) (new : c ∉ node.children) :
    node.children.length < maxChildren := by
  obtain ⟨node', member', same, listed⟩ := edge
  have inside := within.children okT member member' same
  have nodup : (c :: node.children).Nodup :=
    List.nodup_cons.mpr ⟨new, within.ok.children node member⟩
  have count := (nodup.subperm (List.cons_subset.mpr ⟨listed, inside⟩)).length_le
  exact Nat.lt_of_lt_of_le count (okT.fits.children node' member')

/-- A table that lacks an entry of `t` has room for it. -/
theorem array_room (within : Within t s) (okT : TableOk t) {p : UInt8}
    (listed : ∃ node ∈ t, node.id = p) (none : ∀ node ∈ s, node.id ≠ p) :
    s.length < maxTreeNodes := by
  have nodup : (p :: s.map TreeNode.id).Nodup := by
    refine List.nodup_cons.mpr ⟨fun old => ?_, within.ok.ids⟩
    obtain ⟨node, member, same⟩ := List.mem_map.mp old
    exact none node member same
  have inside : p :: s.map TreeNode.id ⊆ t.map TreeNode.id := by
    refine List.cons_subset.mpr ⟨List.mem_map.mpr listed, fun id old => ?_⟩
    obtain ⟨node, member, rfl⟩ := List.mem_map.mp old
    exact List.mem_map.mpr (within.entries node member)
  have count := (nodup.subperm inside).length_le
  rw [List.length_cons, List.length_map, List.length_map] at count
  exact Nat.lt_of_lt_of_le count okT.fits.entries

/-- The merge of an edge of `t` stays inside `t`. -/
theorem added (within : Within t s) {s' : RoutingTree} {p c : UInt8} (edge : HasEdge t p c)
    (ok : TableOk s') (added : Added s maxTreeNodes p c s') : Within t s' := by
  obtain ⟨node', member', own', listed'⟩ := edge
  refine ⟨ok, fun q d edge => ?_, fun node member => ?_⟩
  · rcases added.hasEdge_of edge with old | ⟨rfl, rfl⟩
    · exact within.edges q d old
    · exact ⟨node', member', own', listed'⟩
  · have known : node.id ∈ s'.map TreeNode.id := List.mem_map_of_mem member
    have before : node.id ∈ s.map TreeNode.id → ∃ node' ∈ t, node'.id = node.id := by
      intro old
      obtain ⟨old, oldMem, same⟩ := List.mem_map.mp old
      exact same ▸ within.entries old oldMem
    rcases added.ids with same | ⟨one, -⟩
    · exact before (same ▸ known)
    · rw [one] at known
      rcases List.mem_append.mp known with old | new
      · exact before old
      · exact ⟨node', member', own'.trans (List.mem_singleton.mp new).symm⟩

/-- There is room for every edge of `t`. -/
theorem addChild (within : Within t s) (okT : TableOk t) {p c : UInt8} (edge : HasEdge t p c) :
    Within t (addChild s maxTreeNodes p c) ∧ HasEdge (TreeRssi.addChild s maxTreeNodes p c) p c := by
  have added := addChild_cases s maxTreeNodes p c
  have ok := within.ok.addChild p c
  generalize TreeRssi.addChild s maxTreeNodes p c = s' at added ok
  refine ⟨within.added edge ok added, ?_⟩
  cases added with
  | listed edge => exact edge
  | entryFull node member own new full =>
      subst own
      exact absurd (within.entry_room okT member edge new) (Nat.not_lt.mpr full)
  | arrayFull none full =>
      obtain ⟨node', member', own', -⟩ := edge
      exact absurd (within.array_room okT ⟨node', member', own'⟩ none) (Nat.not_lt.mpr full)
  | grown before node after _ own _ _ =>
      exact ⟨{ node with children := node.children ++ [c] }, by simp, own, by simp⟩
  | created => exact ⟨{ id := p, children := [c] }, by simp, rfl, by simp⟩

/-- A merge of edges of `t` has room for all of them. -/
theorem addEdges (within : Within t s) (okT : TableOk t) {edges : List (UInt8 × UInt8)}
    (inside : ∀ edge ∈ edges, HasEdge t edge.1 edge.2) :
    ∀ edge ∈ edges, HasEdge (addEdges s edges) edge.1 edge.2 := by
  induction edges generalizing s with
  | nil => simp
  | cons first rest ih =>
      obtain ⟨firstIn, restIn⟩ := List.forall_mem_cons.mp inside
      obtain ⟨stays, there⟩ := within.addChild okT firstIn
      refine List.forall_mem_cons.mpr ⟨?_, ih stays restIn⟩
      change HasEdge (TreeRssi.addEdges (TreeRssi.addChild s maxTreeNodes first.1 first.2) rest) _ _
      exact there.addEdges rest

/-- A merge of edges of `t` leaves out neither the edge to the sender nor one that it told. -/
theorem mergeRecv (within : Within t s) (okT : TableOk t) {myId sender : UInt8} {recvTree : RoutingTree}
    (first : headId recvTree = some sender) (toSender : HasEdge t myId sender)
    (told : ∀ p c, HasEdge recvTree p c → HasEdge t p c) :
    HasEdge (mergeRecv myId s recvTree) myId sender ∧
      ∀ p c, HasEdge recvTree p c → HasEdge (TreeRssi.mergeRecv myId s recvTree) p c := by
  have inside : ∀ edge ∈ mergeEdges myId recvTree, HasEdge t edge.1 edge.2 := by
    rintro ⟨p, c⟩ member
    rcases mem_mergeEdges.mp member with ⟨rfl, head⟩ | edge
    · cases first.symm.trans head
      exact toSender
    · exact told p c edge
  have all := within.addEdges okT inside
  rw [mergeRecv_eq]
  exact ⟨all (myId, sender) (mem_mergeEdges.mpr (.inl ⟨rfl, first⟩)),
    fun p c edge => all (p, c) (mem_mergeEdges.mpr (.inr edge))⟩

end Within

/-! ### Text length -/

/-- Behind an id every child takes its digits and one more byte. -/
def childCost (c : UInt8) : Nat := (decimal c.toNat).length + 1

theorem childrenText_length (children : List UInt8) :
    (childrenText false children).length = (children.map childCost).sum := by
  induction children with
  | nil => rfl
  | cons c rest ih =>
      simp only [childrenText, Bool.false_eq_true, if_false, List.length_append, List.length_singleton,
        List.map_cons, List.sum_cons, childCost, ih]
      omega

/-- The text of an entry with children: the id, and the cost of the children. -/
theorem entryText_length {node : TreeNode} (nonempty : node.children ≠ []) :
    (entryText node).length = childCost node.id + (node.children.map childCost).sum := by
  obtain ⟨c, rest, children⟩ := List.exists_cons_of_ne_nil nonempty
  rw [entryText, idText, children]
  simp only [childrenText, if_true, List.length_append, List.length_singleton, List.length_nil,
    List.map_cons, List.sum_cons, childrenText_length, childCost]
  omega

theorem sum_map_le_of_subperm {α : Type} {l l' : List α} (f : α → Nat) (part : l.Subperm l') :
    (l.map f).sum ≤ (l'.map f).sum := by
  obtain ⟨ordered, same, sub⟩ := part
  rw [← (same.map f).sum_eq]
  exact (sub.map f).sum_le_sum fun _ _ => Nat.zero_le _

/-- A table inside another one, without empty entries, has no longer text. -/
theorem fullText_length_le (within : Within t s) (okT : TableOk t)
    (nonempty : ∀ node ∈ s, node.children ≠ []) : (fullText s).length ≤ (fullText t).length := by
  -- Both sides as sums over entry ids, each id with the length of its entry in `t`.
  let cost (id : UInt8) : Nat := ((entryOf t id).map fun node => (entryText node).length).getD 0
  have costOf : ∀ node ∈ t, cost node.id = (entryText node).length := by
    intro node member
    simp only [cost, entryOf_of_mem okT.ids member, Option.map_some, Option.getD_some]
  have shorter : ∀ node ∈ s, (entryText node).length ≤ cost node.id := by
    intro node member
    obtain ⟨node', member', same⟩ := within.entries node member
    have part := (within.ok.children node member).subperm (within.children okT member member' same)
    have nonempty' : node'.children ≠ [] := by
      intro empty
      rw [empty] at part
      exact nonempty node member (List.subperm_nil.mp part)
    rw [← same, costOf node' member', entryText_length (nonempty node member),
      entryText_length nonempty', same]
    exact Nat.add_le_add_left (sum_map_le_of_subperm childCost part) _
  have ids : (s.map TreeNode.id).Subperm (t.map TreeNode.id) := by
    apply within.ok.ids.subperm
    intro id old
    obtain ⟨node, member, rfl⟩ := List.mem_map.mp old
    obtain ⟨node', member', same⟩ := within.entries node member
    exact List.mem_map.mpr ⟨node', member', same⟩
  rw [fullText, fullText, List.length_flatMap, List.length_flatMap]
  calc (s.map fun node => (entryText node).length).sum
      ≤ (s.map fun node => cost node.id).sum := List.sum_le_sum shorter
    _ ≤ (t.map fun node => cost node.id).sum := by
        have whole := sum_map_le_of_subperm cost ids
        rw [List.map_map, List.map_map] at whole
        exact whole
    _ = (t.map fun node => (entryText node).length).sum := by
        rw [List.map_congr_left costOf]

end TreeRssi
