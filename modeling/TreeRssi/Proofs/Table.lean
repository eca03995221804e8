/-
Module: TreeRssi.Proofs.Table
Layer: Proofs
Purpose: What `Add_child` and the merge of `update_routing_table` do to a routing table. `Added` lists
  the outcomes of one `Add_child`; from it come the facts about edges, entry ids and the first entry.
  A merge is a sequence of `Add_child` calls, one for each edge of the received tree after the edge to
  the sender.
Imports: TreeRssi.Core.Control
Trusted boundary: none
Main exports: TableOk, Added, addChild_cases, headId, treeEdges, mergeRecv_cons, mergeRecv_induction,
  TableOk.mergeRecv, hasEdge_mergeRecv, HasEdge.mergeRecv
Open obligations: none
-/
import TreeRssi.Core.Control

namespace TreeRssi

/-! ### Add_child -/

/-- The tables that `Add_child` builds: within the bounds, and without repetitions. -/
structure TableOk (tree : RoutingTree) : Prop where
  fits : FitsArrays tree
  ids : EntriesNodup tree
  children : ∀ node ∈ tree, node.children.Nodup

instance (tree : RoutingTree) : Decidable (TableOk tree) :=
  decidable_of_iff ((tree.length ≤ maxTreeNodes ∧ ∀ node ∈ tree, node.children.length ≤ maxChildren) ∧
      (tree.map TreeNode.id).Nodup ∧ ∀ node ∈ tree, node.children.Nodup)
    ⟨fun ok => ⟨⟨ok.1.1, ok.1.2⟩, ok.2.1, ok.2.2⟩,
      fun ok => ⟨⟨ok.fits.entries, ok.fits.children⟩, ok.ids, ok.children⟩⟩

theorem TableOk.boot (self : LinkAddr) : TableOk (ControlState.boot self).routingTree := by
  rw [ControlState.boot]
  split <;> decide

theorem addToEntry_none {parent child : UInt8} {tree : RoutingTree}
    (none_ : addToEntry parent child tree = none) : ∀ node ∈ tree, node.id ≠ parent := by
  induction tree with
  | nil => simp
  | cons node rest ih =>
      rw [addToEntry] at none_
      split at none_
      · cases none_
      next other =>
        exact List.forall_mem_cons.mpr ⟨other, ih (Option.map_eq_none_iff.mp none_)⟩

theorem addToEntry_some {parent child : UInt8} {tree updated : RoutingTree}
    (some_ : addToEntry parent child tree = some updated) :
    ∃ before node after, tree = before ++ node :: after ∧ node.id = parent ∧
      updated = before ++ node.addChild child :: after := by
  induction tree generalizing updated with
  | nil => cases some_
  | cons node rest ih =>
      rw [addToEntry] at some_
      split at some_
      next own =>
        cases some_
        exact ⟨[], node, rest, rfl, own, rfl⟩
      next other =>
        obtain ⟨tail, found, rfl⟩ := Option.map_eq_some_iff.mp some_
        obtain ⟨before, entry, after, rfl, own, rfl⟩ := ih found
        exact ⟨node :: before, entry, after, rfl, own, rfl⟩

/-- The outcomes of `Add_child`. -/
inductive Added (tree : RoutingTree) (maxN : Nat) (parent child : UInt8) : RoutingTree → Prop where
  | listed (edge : HasEdge tree parent child) : Added tree maxN parent child tree
  | entryFull (node : TreeNode) (member : node ∈ tree) (own : node.id = parent)
      (new : child ∉ node.children) (full : maxChildren ≤ node.children.length) :
      Added tree maxN parent child tree
  | arrayFull (none : ∀ node ∈ tree, node.id ≠ parent) (full : maxN ≤ tree.length) :
      Added tree maxN parent child tree
  | grown (before : RoutingTree) (node : TreeNode) (after : RoutingTree)
      (at_ : tree = before ++ node :: after) (own : node.id = parent) (new : child ∉ node.children)
      (room : node.children.length < maxChildren) :
      Added tree maxN parent child
        (before ++ { node with children := node.children ++ [child] } :: after)
  | created (none : ∀ node ∈ tree, node.id ≠ parent) (room : tree.length < maxN) :
      Added tree maxN parent child (tree ++ [{ id := parent, children := [child] }])

theorem addChild_cases (tree : RoutingTree) (maxN : Nat) (parent child : UInt8) :
    Added tree maxN parent child (addChild tree maxN parent child) := by
  rw [addChild]
  cases found : addToEntry parent child tree with
  | none =>
      have noEntry := addToEntry_none found
      by_cases full : maxN ≤ tree.length
      · simpa only [full, if_true] using .arrayFull noEntry full
      · simpa only [full, if_false] using .created noEntry (Nat.not_le.mp full)
  | some updated =>
      obtain ⟨before, node, after, rfl, own, rfl⟩ := addToEntry_some found
      change Added _ _ _ _ (before ++ node.addChild child :: after)
      have member : node ∈ before ++ node :: after := by simp
      rw [TreeNode.addChild]
      by_cases old : child ∈ node.children
      · simpa only [old, if_true] using .listed ⟨node, member, own, old⟩
      · by_cases room : node.children.length < maxChildren
        · simpa only [old, room, if_true, if_false] using .grown before node after rfl own old room
        · simpa only [old, room, if_false] using
            .entryFull node member own old (Nat.not_lt.mp room)

namespace Added

variable {tree tree' : RoutingTree} {maxN : Nat} {parent child : UInt8}

/-- The only new edge is the added one. -/
theorem hasEdge_of (added : Added tree maxN parent child tree') {p c : UInt8}
    (edge : HasEdge tree' p c) : HasEdge tree p c ∨ (p = parent ∧ c = child) := by
  obtain ⟨entry, member, own, listed⟩ := edge
  cases added with
  | listed | entryFull | arrayFull => exact .inl ⟨entry, member, own, listed⟩
  | grown before node after at_ own' =>
      rcases List.mem_append.mp member with old | new
      · exact .inl ⟨entry, by simp [at_, old], own, listed⟩
      · rcases List.mem_cons.mp new with rfl | old
        · rcases List.mem_append.mp listed with old | last
          · exact .inl ⟨node, by simp [at_], own, old⟩
          · exact .inr ⟨own.symm.trans own', List.mem_singleton.mp last⟩
        · exact .inl ⟨entry, by simp [at_, old], own, listed⟩
  | created =>
      rcases List.mem_append.mp member with old | new
      · exact .inl ⟨entry, old, own, listed⟩
      · cases List.mem_singleton.mp new
        exact .inr ⟨own.symm, List.mem_singleton.mp listed⟩

/-- No edge is lost. -/
theorem keeps (added : Added tree maxN parent child tree') {p c : UInt8} (edge : HasEdge tree p c) :
    HasEdge tree' p c := by
  obtain ⟨entry, member, own, listed⟩ := edge
  cases added with
  | listed | entryFull | arrayFull => exact ⟨entry, member, own, listed⟩
  | grown before node after at_ =>
      rw [at_] at member
      rcases List.mem_append.mp member with old | rest
      · exact ⟨entry, by simp [old], own, listed⟩
      · rcases List.mem_cons.mp rest with rfl | old
        · exact ⟨{ entry with children := entry.children ++ [child] }, by simp, own, by simp [listed]⟩
        · exact ⟨entry, by simp [old], own, listed⟩
  | created => exact ⟨entry, by simp [member], own, listed⟩

/-- The entry ids stay, and a new one may come last. -/
theorem ids (added : Added tree maxN parent child tree') :
    tree'.map TreeNode.id = tree.map TreeNode.id ∨
      (tree'.map TreeNode.id = tree.map TreeNode.id ++ [parent] ∧ ∀ node ∈ tree, node.id ≠ parent) := by
  cases added with
  | listed | entryFull | arrayFull => exact .inl rfl
  | grown before node after at_ => exact .inl (by simp [at_])
  | created none => exact .inr ⟨by simp, none⟩

/-- Every entry was there before, has one child more, or is new with one child. -/
theorem entry (added : Added tree maxN parent child tree') {P : TreeNode → Prop}
    (old : ∀ node ∈ tree, P node)
    (grown : ∀ node ∈ tree, child ∉ node.children → node.children.length < maxChildren →
      P { node with children := node.children ++ [child] })
    (created : P { id := parent, children := [child] }) : ∀ node ∈ tree', P node := by
  cases added with
  | listed | entryFull | arrayFull => exact old
  | grown before node after at_ own new room =>
      rw [at_] at old grown
      intro entry member
      rcases List.mem_append.mp member with early | rest
      · exact old entry (by simp [early])
      · rcases List.mem_cons.mp rest with rfl | late
        · exact grown node (by simp) new room
        · exact old entry (by simp [late])
  | created =>
      intro entry member
      rcases List.mem_append.mp member with early | last
      · exact old entry early
      · cases List.mem_singleton.mp last
        exact created

end Added

theorem TableOk.addChild {tree : RoutingTree} (ok : TableOk tree) (parent child : UInt8) :
    TableOk (addChild tree maxTreeNodes parent child) := by
  have added := addChild_cases tree maxTreeNodes parent child
  generalize TreeRssi.addChild tree maxTreeNodes parent child = tree' at added
  refine ⟨⟨?_, ?_⟩, ?_, ?_⟩
  · have entries := ok.fits.entries
    cases added with
    | listed | entryFull | arrayFull => exact entries
    | grown before node after at_ => simpa [at_] using entries
    | created _ room =>
        rw [List.length_append]
        exact room
  · refine added.entry ok.fits.children (fun node _ _ room => ?_) (by simp [maxChildren])
    rw [List.length_append]
    exact room
  · rw [EntriesNodup]
    rcases added.ids with same | ⟨one, none⟩
    · rw [same]
      exact ok.ids
    · rw [one]
      refine List.nodup_append.mpr ⟨ok.ids, by simp, fun id old new last => ?_⟩
      obtain ⟨node, member, rfl⟩ := List.mem_map.mp old
      rw [List.mem_singleton.mp last]
      exact none node member
  · refine added.entry ok.children (fun node member new _ => ?_) (by simp)
    refine List.nodup_append.mpr ⟨ok.children node member, by simp, fun id old last member => ?_⟩
    rintro rfl
    exact new (List.mem_singleton.mp member ▸ old)

/-- `tree'` has the entries of `tree` in their order, each with its children in their order, and maybe
    more children behind them and more entries behind. -/
inductive Extends : RoutingTree → RoutingTree → Prop where
  | nil (tree' : RoutingTree) : Extends [] tree'
  | cons {node node' : TreeNode} {rest rest' : RoutingTree} (id : node'.id = node.id)
      (children : node.children <+: node'.children) (tail : Extends rest rest') :
      Extends (node :: rest) (node' :: rest')

namespace Extends

variable {tree tree' tree'' : RoutingTree}

theorem append (tree back : RoutingTree) : Extends tree (tree ++ back) := by
  induction tree with
  | nil => exact .nil _
  | cons node rest ih => exact .cons rfl (List.prefix_refl _) ih

theorem refl (tree : RoutingTree) : Extends tree tree := by
  simpa using append tree []

theorem trans (first : Extends tree tree') (second : Extends tree' tree'') : Extends tree tree'' := by
  induction first generalizing tree'' with
  | nil => exact .nil _
  | cons id children _ ih =>
      cases second with
      | cons id' children' tail' =>
          exact .cons (id'.trans id) (children.trans children') (ih tail')

/-- Every entry is still there, with its children. -/
theorem mem (extends_ : Extends tree tree') {node : TreeNode} (member : node ∈ tree) :
    ∃ node' ∈ tree', node'.id = node.id ∧ node.children <+: node'.children := by
  induction extends_ with
  | nil => cases member
  | @cons first first' rest rest' id children _ ih =>
      rcases List.mem_cons.mp member with rfl | later
      · exact ⟨first', by simp, id, children⟩
      · obtain ⟨node', member', same, longer⟩ := ih later
        exact ⟨node', by simp [member'], same, longer⟩

end Extends

/-- `Add_child` removes and reorders nothing. -/
theorem Added.extends {tree tree' : RoutingTree} {maxN : Nat} {parent child : UInt8}
    (added : Added tree maxN parent child tree') : Extends tree tree' := by
  cases added with
  | listed | entryFull | arrayFull => exact .refl _
  | grown before node after at_ =>
      rw [at_]
      clear at_
      induction before with
      | nil => exact .cons rfl (List.prefix_append _ _) (.refl _)
      | cons first before ih => exact .cons rfl (List.prefix_refl _) ih
  | created => exact .append _ _

/-- The id of the first entry. -/
def headId (tree : RoutingTree) : Option UInt8 := (tree.map TreeNode.id).head?

/-- A table keeps its first entry; the first edge of an empty table gives it one. -/
theorem headId_addChild (tree : RoutingTree) (parent child : UInt8) :
    headId (addChild tree maxTreeNodes parent child) = some ((headId tree).getD parent) := by
  have added := addChild_cases tree maxTreeNodes parent child
  generalize addChild tree maxTreeNodes parent child = tree' at added
  cases tree with
  | nil =>
      cases added with
      | listed edge => exact absurd edge (by simp [HasEdge])
      | entryFull _ member => cases member
      | arrayFull _ full => cases full
      | grown before _ _ at_ => exact absurd at_ (by simp)
      | created => rfl
  | cons first rest =>
      rcases added.ids with same | ⟨one, -⟩
      · rw [headId, same]
        rfl
      · rw [headId, one]
        rfl

/-! ### The merge of update_routing_table -/

/-- The edges of a received tree, in the order of the loops. -/
def treeEdges (recvTree : RoutingTree) : List (UInt8 × UInt8) :=
  recvTree.flatMap fun node => node.children.map fun child => (node.id, child)

/-- Add edges one after the other. -/
def addEdges (tree : RoutingTree) (edges : List (UInt8 × UInt8)) : RoutingTree :=
  edges.foldl (fun tree edge => addChild tree maxTreeNodes edge.1 edge.2) tree

theorem mem_treeEdges {recvTree : RoutingTree} {p c : UInt8} :
    (p, c) ∈ treeEdges recvTree ↔ HasEdge recvTree p c := by
  simp only [treeEdges, List.mem_flatMap, List.mem_map, Prod.mk.injEq, HasEdge]
  constructor
  · rintro ⟨node, member, child, listed, own, rfl⟩
    exact ⟨node, member, own, listed⟩
  · rintro ⟨node, member, own, listed⟩
    exact ⟨node, member, c, listed, own, rfl⟩

/-- The edges that a merge adds, in order: the edge to the sender and those of the received tree. -/
def mergeEdges (myId : UInt8) (recvTree : RoutingTree) : List (UInt8 × UInt8) :=
  ((headId recvTree).map fun sender => (myId, sender)).toList ++ treeEdges recvTree

/-- A merge adds the edge to the sender and then those of the received tree. -/
theorem mergeRecv_cons (myId : UInt8) (tree : RoutingTree) (sender : TreeNode) (rest : RoutingTree) :
    mergeRecv myId tree (sender :: rest) =
      addEdges tree ((myId, sender.id) :: treeEdges (sender :: rest)) := by
  have loops : ∀ (recvTree tree : RoutingTree),
      recvTree.foldl (fun tree node =>
        node.children.foldl (fun tree child => addChild tree maxTreeNodes node.id child) tree) tree =
      addEdges tree (treeEdges recvTree) := by
    intro recvTree
    induction recvTree with
    | nil => exact fun _ => rfl
    | cons node rest ih =>
        intro tree
        have split : treeEdges (node :: rest) =
            node.children.map (fun child => (node.id, child)) ++ treeEdges rest := rfl
        rw [List.foldl_cons, ih, split, addEdges, addEdges, List.foldl_append, List.foldl_map]
  exact loops _ _

theorem mergeRecv_eq (myId : UInt8) (tree recvTree : RoutingTree) :
    mergeRecv myId tree recvTree = addEdges tree (mergeEdges myId recvTree) := by
  cases recvTree with
  | nil => rfl
  | cons sender rest => exact mergeRecv_cons myId tree sender rest

theorem mem_mergeEdges {myId : UInt8} {recvTree : RoutingTree} {p c : UInt8} :
    (p, c) ∈ mergeEdges myId recvTree ↔
      (p = myId ∧ headId recvTree = some c) ∨ HasEdge recvTree p c := by
  rw [mergeEdges, List.mem_append, mem_treeEdges]
  cases headId recvTree with
  | none => simp
  | some sender => simp [eq_comm]

/-- What every added edge keeps a merge keeps. -/
theorem addEdges_induction {P : RoutingTree → Prop} {edges : List (UInt8 × UInt8)}
    (kept : ∀ tree, ∀ edge ∈ edges, P tree → P (addChild tree maxTreeNodes edge.1 edge.2))
    {tree : RoutingTree} (start : P tree) : P (addEdges tree edges) := by
  induction edges generalizing tree with
  | nil => exact start
  | cons edge edges ih =>
      exact ih (fun tree e member => kept tree e (List.mem_cons_of_mem _ member))
        (kept tree edge (by simp) start)

/-- What every `Add_child` keeps a merge keeps. -/
theorem mergeRecv_induction {P : RoutingTree → Prop} {myId : UInt8} {recvTree : RoutingTree}
    (kept : ∀ tree p c, P tree → P (addChild tree maxTreeNodes p c)) {tree : RoutingTree}
    (start : P tree) : P (mergeRecv myId tree recvTree) := by
  rw [mergeRecv_eq]
  exact addEdges_induction (fun tree edge _ => kept tree edge.1 edge.2) start

theorem TableOk.mergeRecv {tree : RoutingTree} (ok : TableOk tree) (myId : UInt8)
    (recvTree : RoutingTree) : TableOk (mergeRecv myId tree recvTree) :=
  mergeRecv_induction (fun _ p c ok => ok.addChild p c) ok

/-- No edge is lost by adding others. -/
theorem HasEdge.addEdges {tree : RoutingTree} {p c : UInt8} (edge : HasEdge tree p c)
    (edges : List (UInt8 × UInt8)) : HasEdge (addEdges tree edges) p c :=
  addEdges_induction (P := fun tree => HasEdge tree p c)
    (fun tree new _ kept => (addChild_cases tree _ _ new.2).keeps kept) edge

/-- No edge is lost in a merge. -/
theorem HasEdge.mergeRecv {tree : RoutingTree} {p c : UInt8} (edge : HasEdge tree p c) (myId : UInt8)
    (recvTree : RoutingTree) : HasEdge (mergeRecv myId tree recvTree) p c := by
  rw [mergeRecv_eq]
  exact edge.addEdges _

/-- An edge was there before or was added. -/
theorem hasEdge_of_addEdges {tree : RoutingTree} {edges : List (UInt8 × UInt8)} {p c : UInt8}
    (edge : HasEdge (addEdges tree edges) p c) : HasEdge tree p c ∨ (p, c) ∈ edges := by
  revert edge
  apply addEdges_induction (P := fun added => HasEdge added p c → HasEdge tree p c ∨ (p, c) ∈ edges)
  · intro added new member ih edge
    rcases (addChild_cases added _ _ new.2).hasEdge_of edge with old | ⟨rfl, rfl⟩
    · exact ih old
    · exact .inr member
  · exact .inl

/-- Where the edges of a merge come from. -/
theorem hasEdge_mergeRecv {tree recvTree : RoutingTree} {myId p c : UInt8}
    (edge : HasEdge (mergeRecv myId tree recvTree) p c) :
    HasEdge tree p c ∨ (p = myId ∧ headId recvTree = some c) ∨ HasEdge recvTree p c := by
  rw [mergeRecv_eq] at edge
  exact (hasEdge_of_addEdges edge).imp_right mem_mergeEdges.mp

/-- The first entry of a table stays the node's own in a merge. -/
theorem headId_mergeRecv {tree : RoutingTree} {myId : UInt8} (own : ∀ id ∈ headId tree, id = myId)
    (recvTree : RoutingTree) : ∀ id ∈ headId (mergeRecv myId tree recvTree), id = myId := by
  cases recvTree with
  | nil => exact own
  | cons sender rest =>
      have first : headId (addChild tree maxTreeNodes myId sender.id) = some myId := by
        rw [headId_addChild]
        cases head : headId tree with
        | none => rfl
        | some id => rw [Option.getD_some, own id head]
      have kept : headId (addEdges (addChild tree maxTreeNodes myId sender.id)
          (treeEdges (sender :: rest))) = some myId :=
        addEdges_induction (P := fun tree => headId tree = some myId)
          (fun tree edge _ head => by rw [headId_addChild, head]; rfl) first
      rw [mergeRecv_cons]
      exact fun id member => (Option.some.inj (kept.symm.trans member)).symm

end TreeRssi
