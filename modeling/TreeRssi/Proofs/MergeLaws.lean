/-
Module: TreeRssi.Proofs.MergeLaws
Layer: Proofs
Purpose: The merge of `update_routing_table` as an operation on tables. `Add_child` settles: done again
  it changes nothing, whether it listed the child, found it listed or was refused for lack of space, so
  merging one string twice is merging it once. Where the limits leave room for every edge, a merge is
  the union of edges, and the order of two merges does not matter.
Imports: TreeRssi.Lib.Settle, TreeRssi.Proofs.Capacity
Trusted boundary: none
Main exports: Idle, addChild_settles, updateRoutingTable_twice, FitsLimits, hasEdge_addEdges,
  mergeRecv_laws
Open obligations: none
-/
import TreeRssi.Lib.Settle
import TreeRssi.Proofs.Capacity

namespace TreeRssi

open Settling

/-! ### Add_child settles -/

/-- The reasons for which `Add_child` does nothing: the child is listed, the entry of its parent is full,
    or the parent has no entry and the array is full. -/
inductive Idle (tree : RoutingTree) (parent child : UInt8) : Prop where
  | listed (edge : HasEdge tree parent child)
  | entryFull (node : TreeNode) (member : node ∈ tree) (own : node.id = parent)
      (full : maxChildren ≤ node.children.length)
  | arrayFull (none : ∀ node ∈ tree, node.id ≠ parent) (full : maxTreeNodes ≤ tree.length)

variable {tree tree' : RoutingTree} {parent child : UInt8}

theorem Idle.addChild (idle : Idle tree parent child) (nodup : EntriesNodup tree) :
    addChild tree maxTreeNodes parent child = tree := by
  have added := addChild_cases tree maxTreeNodes parent child
  generalize TreeRssi.addChild tree maxTreeNodes parent child = tree' at added
  cases added with
  | listed | entryFull | arrayFull => rfl
  | grown before node after at_ own new room =>
      have member : node ∈ tree := by simp [at_]
      cases idle with
      | listed edge =>
          obtain ⟨node', member', own', listed⟩ := edge
          cases nodup.unique member member' (own.trans own'.symm)
          exact absurd listed new
      | entryFull node' member' own' full =>
          cases nodup.unique member member' (own.trans own'.symm)
          exact absurd room (Nat.not_lt.mpr full)
      | arrayFull none => exact absurd own (none node member)
  | created none room =>
      cases idle with
      | listed edge =>
          obtain ⟨node, member, own, -⟩ := edge
          exact absurd own (none node member)
      | entryFull node member own => exact absurd own (none node member)
      | arrayFull _ full => exact absurd room (Nat.not_lt.mpr full)

/-- After an `Add_child` another one with the same arguments does nothing. -/
theorem Added.idle (added : Added tree maxTreeNodes parent child tree') : Idle tree' parent child := by
  cases added with
  | listed edge => exact .listed edge
  | entryFull node member own _ full => exact .entryFull node member own full
  | arrayFull none full => exact .arrayFull none full
  | grown before node after _ own =>
      exact .listed ⟨{ node with children := node.children ++ [child] }, by simp, own, by simp⟩
  | created => exact .listed ⟨{ id := parent, children := [child] }, by simp, rfl, by simp⟩

/-- No `Add_child` makes room for another one. -/
theorem Idle.added (idle : Idle tree parent child) {p c : UInt8}
    (added : Added tree maxTreeNodes p c tree') : Idle tree' parent child := by
  cases idle with
  | listed edge => exact .listed (added.keeps edge)
  | entryFull node member own full =>
      obtain ⟨node', member', same, longer⟩ := added.extends.mem member
      exact .entryFull node' member' (same.trans own) (Nat.le_trans full longer.length_le)
  | arrayFull none full =>
      cases added with
      | listed | entryFull | arrayFull => exact .arrayFull none full
      | grown before node after at_ =>
          rw [at_] at none full
          refine .arrayFull (fun node' member => ?_) (by simpa using full)
          rcases List.mem_append.mp member with early | rest
          · exact none node' (by simp [early])
          · rcases List.mem_cons.mp rest with rfl | late
            · exact none node (by simp)
            · exact none node' (by simp [late])
      | created _ room => exact absurd room (Nat.not_lt.mpr full)

theorem addChild_settles :
    Settles (fun tree (edge : UInt8 × UInt8) => addChild tree maxTreeNodes edge.1 edge.2) TableOk where
  keeps := fun _ edge ok => ok.addChild edge.1 edge.2
  once := fun tree edge ok =>
    (addChild_cases tree maxTreeNodes edge.1 edge.2).idle.addChild (ok.addChild edge.1 edge.2).ids
  stays := by
    intro tree edge other ok settled
    have idle : Idle tree edge.1 edge.2 := by
      have added := (addChild_cases tree maxTreeNodes edge.1 edge.2).idle
      rwa [show addChild tree maxTreeNodes edge.1 edge.2 = tree from settled] at added
    exact (idle.added (addChild_cases tree maxTreeNodes other.1 other.2)).addChild
      (ok.addChild other.1 other.2).ids

/-- Merging a string twice is merging it once. -/
theorem updateRoutingTable_twice (ok : TableOk tree) (myId : UInt8) (serialStr : List UInt8) :
    updateRoutingTable myId (updateRoutingTable myId tree serialStr) serialStr =
      updateRoutingTable myId tree serialStr := by
  simp only [updateRoutingTable, mergeRecv_eq]
  exact addChild_settles.foldl_twice ok _

/-! ### Merges within the limits -/

/-- The children of `p` among some edges. -/
def childrenIn (edges : List (UInt8 × UInt8)) (p : UInt8) : Finset UInt8 :=
  ((edges.filter (·.1 = p)).map Prod.snd).toFinset

theorem mem_childrenIn {edges : List (UInt8 × UInt8)} {p c : UInt8} :
    c ∈ childrenIn edges p ↔ (p, c) ∈ edges := by
  simp [childrenIn]

theorem childrenIn_card_le_count (edges : List (UInt8 × UInt8)) (p : UInt8) :
    (childrenIn edges p).card ≤ (edges.map Prod.fst).count p := by
  calc (childrenIn edges p).card
      ≤ ((edges.filter (·.1 = p)).map Prod.snd).length := List.toFinset_card_le _
    _ = (edges.filter (·.1 = p)).length := List.length_map _
    _ = (edges.map Prod.fst).count p := by
      rw [List.count, List.countP_map, List.countP_eq_length_filter]
      rfl

theorem childrenIn_card_le (edges : List (UInt8 × UInt8)) (p : UInt8) :
    (childrenIn edges p).card ≤ edges.length :=
  Nat.le_trans (childrenIn_card_le_count edges p)
    (Nat.le_trans List.count_le_length (Nat.le_of_eq (List.length_map _)))

/-- The limits leave room for the edges beside what is in the table: there are at most 20 entries of the
    table and further parents, and each of them has at most 8 children. -/
structure FitsLimits (tree : RoutingTree) (edges : List (UInt8 × UInt8)) : Prop where
  entries : (tree.map TreeNode.id ++ edges.map Prod.fst).toFinset.card ≤ maxTreeNodes
  children : ∀ p, (childrenIn (treeEdges tree ++ edges) p).card ≤ maxChildren

/-- The table of some entries with given children. -/
noncomputable def tableOf (ids : Finset UInt8) (children : UInt8 → Finset UInt8) : RoutingTree :=
  ids.toList.map fun id => { id := id, children := (children id).toList }

theorem hasEdge_tableOf {ids : Finset UInt8} {children : UInt8 → Finset UInt8} {p c : UInt8} :
    HasEdge (tableOf ids children) p c ↔ p ∈ ids ∧ c ∈ children p := by
  simp only [HasEdge, tableOf, List.mem_map, Finset.mem_toList]
  constructor
  · rintro ⟨_, ⟨id, member, rfl⟩, rfl, listed⟩
    exact ⟨member, Finset.mem_toList.mp listed⟩
  · rintro ⟨member, listed⟩
    exact ⟨_, ⟨p, member, rfl⟩, rfl, Finset.mem_toList.mpr listed⟩

theorem tableOf_ok {ids : Finset UInt8} {children : UInt8 → Finset UInt8}
    (entries : ids.card ≤ maxTreeNodes) (each : ∀ p, (children p).card ≤ maxChildren) :
    TableOk (tableOf ids children) := by
  have made : ∀ node ∈ tableOf ids children, node.children = (children node.id).toList := by
    intro node member
    obtain ⟨id, -, rfl⟩ := List.mem_map.mp member
    rfl
  refine ⟨⟨?_, fun node member => ?_⟩, ?_, fun node member => ?_⟩
  · rw [tableOf, List.length_map, Finset.length_toList]
    exact entries
  · rw [made node member, Finset.length_toList]
    exact each node.id
  · rw [EntriesNodup, tableOf, List.map_map]
    simpa [Function.comp_def] using ids.nodup_toList
  · rw [made node member]
    exact Finset.nodup_toList _

/-- A table that the limits leave room beside lies inside one that has all the edges. -/
theorem FitsLimits.within (ok : TableOk tree) {edges : List (UInt8 × UInt8)}
    (fits : FitsLimits tree edges) :
    ∃ t, TableOk t ∧ Within t tree ∧ ∀ edge ∈ edges, HasEdge t edge.1 edge.2 := by
  refine ⟨tableOf _ _, tableOf_ok fits.entries fits.children,
    ⟨ok, fun p c edge => ?_, fun node member => ?_⟩, fun edge member => ?_⟩
  · obtain ⟨node, member, own, listed⟩ := edge
    refine hasEdge_tableOf.mpr ⟨?_, mem_childrenIn.mpr ?_⟩
    · have listed : p ∈ tree.map TreeNode.id := List.mem_map.mpr ⟨node, member, own⟩
      simp only [List.mem_toFinset, List.mem_append]
      exact .inl listed
    · exact List.mem_append_left _ (mem_treeEdges.mpr ⟨node, member, own, listed⟩)
  · refine ⟨_, List.mem_map.mpr ⟨node.id, ?_, rfl⟩, rfl⟩
    have listed : node.id ∈ tree.map TreeNode.id := List.mem_map_of_mem member
    simp only [Finset.mem_toList, List.mem_toFinset, List.mem_append]
    exact .inl listed
  · refine hasEdge_tableOf.mpr ⟨?_, mem_childrenIn.mpr (List.mem_append_right _ member)⟩
    have listed : edge.1 ∈ edges.map Prod.fst := List.mem_map_of_mem member
    simp only [List.mem_toFinset, List.mem_append]
    exact .inr listed

/-- Where the limits leave room, adding edges is a union. -/
theorem hasEdge_addEdges (ok : TableOk tree) {edges : List (UInt8 × UInt8)}
    (fits : FitsLimits tree edges) {p c : UInt8} :
    HasEdge (addEdges tree edges) p c ↔ HasEdge tree p c ∨ (p, c) ∈ edges := by
  obtain ⟨t, okT, within, inside⟩ := fits.within ok
  refine ⟨hasEdge_of_addEdges, ?_⟩
  rintro (old | new)
  · exact old.addEdges edges
  · exact within.addEdges okT inside (p, c) new

/-- Room does not depend on the order of the edges. -/
theorem FitsLimits.swap {first second : List (UInt8 × UInt8)}
    (fits : FitsLimits tree (first ++ second)) : FitsLimits tree (second ++ first) := by
  constructor
  · have same : (tree.map TreeNode.id ++ (second ++ first).map Prod.fst).toFinset =
        (tree.map TreeNode.id ++ (first ++ second).map Prod.fst).toFinset := by
      ext id
      simp only [List.mem_toFinset, List.mem_append, List.map_append]
      rw [or_comm (a := id ∈ second.map Prod.fst)]
    rw [same]
    exact fits.entries
  · intro p
    have same : childrenIn (treeEdges tree ++ (second ++ first)) p =
        childrenIn (treeEdges tree ++ (first ++ second)) p := by
      ext c
      simp only [mem_childrenIn, List.mem_append]
      rw [or_comm (a := (p, c) ∈ second)]
    rw [same]
    exact fits.children p

/-- The edges after two merges with room for both. -/
theorem hasEdge_updateRoutingTable_two (ok : TableOk tree) (myId : UInt8) (s1 s2 : List UInt8)
    (fits : FitsLimits tree (mergeEdges myId (deserialize s1 maxTreeNodes) ++
      mergeEdges myId (deserialize s2 maxTreeNodes))) {p c : UInt8} :
    HasEdge (updateRoutingTable myId (updateRoutingTable myId tree s1) s2) p c ↔
      HasEdge tree p c ∨ (p, c) ∈ mergeEdges myId (deserialize s1 maxTreeNodes) ∨
        (p, c) ∈ mergeEdges myId (deserialize s2 maxTreeNodes) := by
  have both : updateRoutingTable myId (updateRoutingTable myId tree s1) s2 =
      addEdges tree (mergeEdges myId (deserialize s1 maxTreeNodes) ++
        mergeEdges myId (deserialize s2 maxTreeNodes)) := by
    simp only [updateRoutingTable, mergeRecv_eq, addEdges, List.foldl_append]
  rw [both, hasEdge_addEdges ok fits, List.mem_append]

/-- Merging a control string twice is merging it once, whatever the limits refuse; and two strings for
    whose edges the limits leave room can be merged in either order: the edges are then those of the
    table, those of the decoded strings, and those from the node's own id to the first id of each. -/
theorem mergeRecv_laws (myId : UInt8) (tree : RoutingTree) (ok : TableOk tree) :
    (∀ s, updateRoutingTable myId (updateRoutingTable myId tree s) s = updateRoutingTable myId tree s) ∧
    ∀ s1 s2 recv1 recv2, deserialize s1 maxTreeNodes = recv1 → deserialize s2 maxTreeNodes = recv2 →
      FitsLimits tree (mergeEdges myId recv1 ++ mergeEdges myId recv2) → ∀ p c,
        (HasEdge (updateRoutingTable myId (updateRoutingTable myId tree s1) s2) p c ↔
          HasEdge tree p c ∨ HasEdge recv1 p c ∨ HasEdge recv2 p c ∨
            (p = myId ∧ (headId recv1 = some c ∨ headId recv2 = some c))) ∧
        (HasEdge (updateRoutingTable myId (updateRoutingTable myId tree s2) s1) p c ↔
          HasEdge tree p c ∨ HasEdge recv1 p c ∨ HasEdge recv2 p c ∨
            (p = myId ∧ (headId recv1 = some c ∨ headId recv2 = some c))) := by
  refine ⟨updateRoutingTable_twice ok myId, ?_⟩
  rintro s1 s2 _ _ rfl rfl fits p c
  rw [hasEdge_updateRoutingTable_two ok myId s1 s2 fits,
    hasEdge_updateRoutingTable_two ok myId s2 s1 fits.swap]
  simp only [mem_mergeEdges, and_or_left]
  constructor <;> tauto

/-- At node 1 the reports `2:;` and `3:4;` can come in either order. -/
theorem mergeRecv_laws_twoReports :
    HasEdge (updateRoutingTable 1 (updateRoutingTable 1 [⟨1, []⟩]
      [CText.ch '3', CText.ch ':', CText.ch '4', CText.ch ';'])
      [CText.ch '2', CText.ch ':', CText.ch ';']) 3 4 := by
  have ok : TableOk [⟨1, []⟩] := by decide
  have first : deserialize [CText.ch '2', CText.ch ':', CText.ch ';'] maxTreeNodes = [⟨2, []⟩] := by
    decide +kernel
  have second : deserialize [CText.ch '3', CText.ch ':', CText.ch '4', CText.ch ';'] maxTreeNodes =
      [⟨3, [4]⟩] := by
    decide +kernel
  have fits : FitsLimits [⟨1, []⟩] (mergeEdges 1 [⟨2, []⟩] ++ mergeEdges 1 [⟨3, [4]⟩]) :=
    ⟨by decide, fun p => Nat.le_trans (childrenIn_card_le _ p) (by decide)⟩
  exact (((mergeRecv_laws 1 [⟨1, []⟩] ok).2 _ _ _ _ first second fits 3 4).2).mpr
    (.inr (.inr (.inl ⟨⟨3, [4]⟩, by simp, rfl, by simp⟩)))

end TreeRssi
