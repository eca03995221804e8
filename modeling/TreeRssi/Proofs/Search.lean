/-
Module: TreeRssi.Proofs.Search
Layer: Proofs
Purpose: `Search_forwarder` is a depth-first search from the children of the node's own entry. With
  enough fuel its answer does not depend on the fuel, and it is right about which child leads to the
  destination. The search ends for every destination exactly when no cycle of child edges can be
  reached from the node's own entry.
Imports: TreeRssi.Core.Table, Mathlib (finite types)
Trusted boundary: none
Main exports: findInSubtree_eq, searchForwarder_eq, searchForwarder_mono, searchForwarder_child,
  searchForwarder_first, searchForwarder_none, searchTerminates_of_grounded, searchForwarder_reaches,
  searchTerminates_iff_no_cycle
Open obligations: none
-/
import Mathlib.Data.FinEnum
import TreeRssi.Core.Table

namespace TreeRssi

open DepthFirst

variable {tree : RoutingTree} {myId dstId : UInt8}

theorem findInSubtree_eq (fuel : Nat) (rootId : UInt8) :
    findInSubtree tree fuel rootId dstId = search (childrenOf tree) dstId fuel rootId := by
  induction fuel generalizing rootId with
  | zero => rfl
  | succ fuel ih =>
      rw [findInSubtree, search, childrenOf]
      cases entryOf tree rootId with
      | none => rfl
      | some node => simp only [ih, Option.map_some, Option.getD_some]

theorem searchForwarder_eq (fuel : Nat) : searchForwarder fuel tree myId dstId =
    (findFirst (search (childrenOf tree) dstId fuel) (childrenOf tree myId)).map (·.getD 0) := by
  rw [searchForwarder, childrenOf]
  cases entryOf tree myId with
  | none => rfl
  | some node => simp only [findInSubtree_eq, Option.map_some, Option.getD_some]

/-- More fuel does not change the forwarder. -/
theorem searchForwarder_mono {fuel more : Nat} (le : fuel ≤ more) {forwarder : UInt8}
    (found : searchForwarder fuel tree myId dstId = some forwarder) :
    searchForwarder more tree myId dstId = some forwarder := by
  rw [searchForwarder_eq] at found ⊢
  obtain ⟨r, asked, rfl⟩ := Option.map_eq_some_iff.mp found
  rw [findFirst_mono (fun v b => search_mono le) asked]
  rfl

/-- A forwarder other than 0 is the first child whose subtree holds the destination. -/
theorem searchForwarder_first {fuel : Nat} {forwarder : UInt8} (proper : forwarder ≠ 0)
    (found : searchForwarder fuel tree myId dstId = some forwarder) :
    ∃ before after, childrenOf tree myId = before ++ forwarder :: after ∧
      Reaches (childrenOf tree) forwarder dstId ∧
      ∀ child ∈ before, ¬ Reaches (childrenOf tree) child dstId := by
  rw [searchForwarder_eq] at found
  obtain ⟨r, asked, value⟩ := Option.map_eq_some_iff.mp found
  cases r with
  | none => exact absurd value.symm proper
  | some child =>
      cases value
      obtain ⟨before, after, split, success, failed⟩ := findFirst_some asked
      exact ⟨before, after, split, search_reaches success,
        fun child earlier => search_avoids (failed child earlier)⟩

/-- Such a forwarder is a child that leads to the destination. -/
theorem searchForwarder_child {fuel : Nat} {forwarder : UInt8} (proper : forwarder ≠ 0)
    (found : searchForwarder fuel tree myId dstId = some forwarder) :
    forwarder ∈ childrenOf tree myId ∧ Reaches (childrenOf tree) forwarder dstId := by
  obtain ⟨before, after, split, leads, -⟩ := searchForwarder_first proper found
  rw [split]
  exact ⟨by simp, leads⟩

/-- The forwarder is 0 only when no child but 0 itself leads to the destination. -/
theorem searchForwarder_none {fuel : Nat} (found : searchForwarder fuel tree myId dstId = some 0)
    {child : UInt8} (listed : child ∈ childrenOf tree myId) (noNull : 0 ∉ childrenOf tree myId) :
    ¬ Reaches (childrenOf tree) child dstId := by
  rw [searchForwarder_eq] at found
  obtain ⟨r, asked, value⟩ := Option.map_eq_some_iff.mp found
  cases r with
  | none => exact search_avoids (findFirst_none.mp asked child listed)
  | some first =>
      cases value
      obtain ⟨before, after, split, -, -⟩ := findFirst_some asked
      exact absurd (by simp [split]) noNull

/-- Where the children are well founded the search ends. -/
theorem searchTerminates_of_grounded (grounded : Grounded (childrenOf tree) myId) :
    SearchTerminates tree myId dstId := by
  have answers : ∀ child ∈ childrenOf tree myId, ∃ fuel b,
      search (childrenOf tree) dstId fuel child = some b := fun child edge =>
    exists_search_of_grounded (grounded.inv edge)
  obtain ⟨fuel, r, asked⟩ := exists_findFirst answers
  refine ⟨fuel, r.getD 0, ?_⟩
  rw [searchForwarder_eq, asked]
  rfl

/-- Where the search for an absent destination ends the children are well founded. -/
theorem grounded_of_searchTerminates (absent : ¬ Relation.TransGen (Edge (childrenOf tree)) myId dstId)
    (terminates : SearchTerminates tree myId dstId) : Grounded (childrenOf tree) myId := by
  obtain ⟨fuel, forwarder, found⟩ := terminates
  rw [searchForwarder_eq] at found
  obtain ⟨r, asked, -⟩ := Option.map_eq_some_iff.mp found
  apply Acc.intro
  intro child edge
  cases r with
  | none => exact grounded_of_search (findFirst_none.mp asked child edge)
  | some child =>
      obtain ⟨before, after, split, success, -⟩ := findFirst_some asked
      have first : Edge (childrenOf tree) myId child := by simp [Edge, split]
      exact absurd (.head' first (search_reaches success)) absent

/-! ### Edges -/

/-- A child that the lookup sees is a child in the table. -/
theorem hasEdge_of_edge {p c : UInt8} (edge : Edge (childrenOf tree) p c) : HasEdge tree p c := by
  rw [Edge, childrenOf] at edge
  cases found : entryOf tree p with
  | none => rw [found] at edge; cases edge
  | some node =>
      rw [found] at edge
      have matches_ := List.find?_some found
      exact ⟨node, List.mem_of_find?_eq_some found, of_decide_eq_true matches_, edge⟩

/-- Without repeated entries the lookup finds every entry. -/
theorem entryOf_of_mem (nodup : EntriesNodup tree) {node : TreeNode} (member : node ∈ tree) :
    entryOf tree node.id = some node := by
  rw [entryOf]
  induction tree with
  | nil => cases member
  | cons first rest ih =>
      obtain ⟨new, others⟩ := List.nodup_cons.mp nodup
      rcases List.mem_cons.mp member with rfl | later
      · exact List.find?_cons_of_pos (by simp)
      · have other : first.id ≠ node.id := fun same => new (same ▸ List.mem_map_of_mem later)
        rw [List.find?_cons_of_neg (by simpa using other)]
        exact ih others later

/-- Without repeated entries the lookup sees every child. -/
theorem edge_of_hasEdge (nodup : EntriesNodup tree) {p c : UInt8} (edge : HasEdge tree p c) :
    Edge (childrenOf tree) p c := by
  obtain ⟨node, member, rfl, listed⟩ := edge
  rw [Edge, childrenOf, entryOf_of_mem nodup member]
  exact listed

/-! ### The forwarder of an acyclic table -/

/-- `Search_forwarder` is reachability: in a table without repeated entries, null children and cycles it
    ends, whatever the recursion depth beyond some bound, with the first child of the node's entry that
    leads to the destination, and with 0 exactly if there is no such child. -/
theorem searchForwarder_reaches (nodup : EntriesNodup tree) (noNull : ∀ node ∈ tree, 0 ∉ node.children)
    (acyclic : ∀ id, ¬ Relation.TransGen (HasEdge tree) id id) (myId dstId : UInt8) :
    ∃ enough forwarder,
      (∀ fuel, enough ≤ fuel → searchForwarder fuel tree myId dstId = some forwarder) ∧
      (forwarder = 0 ↔ ∀ node ∈ tree, node.id = myId →
        ∀ child ∈ node.children, ¬ Relation.ReflTransGen (HasEdge tree) child dstId) ∧
      (forwarder ≠ 0 → ∃ node ∈ tree, node.id = myId ∧
        ∃ before after, node.children = before ++ forwarder :: after ∧
          Relation.ReflTransGen (HasEdge tree) forwarder dstId ∧
          ∀ child ∈ before, ¬ Relation.ReflTransGen (HasEdge tree) child dstId) := by
  have sameEdges : Edge (childrenOf tree) = HasEdge tree := by
    funext p c
    exact propext ⟨hasEdge_of_edge, edge_of_hasEdge nodup⟩
  have grounded : Grounded (childrenOf tree) myId := by
    apply grounded_iff_no_cycle.mpr
    intro id _
    rw [sameEdges]
    exact acyclic id
  obtain ⟨enough, forwarder, found⟩ : SearchTerminates tree myId dstId :=
    searchTerminates_of_grounded grounded
  have first : forwarder ≠ 0 → ∃ node ∈ tree, node.id = myId ∧
      ∃ before after, node.children = before ++ forwarder :: after ∧
        Relation.ReflTransGen (HasEdge tree) forwarder dstId ∧
        ∀ child ∈ before, ¬ Relation.ReflTransGen (HasEdge tree) child dstId := by
    intro proper
    obtain ⟨before, after, split, leads, others⟩ := searchForwarder_first proper found
    have own : Edge (childrenOf tree) myId forwarder := by simp [Edge, split]
    obtain ⟨node, member, same, -⟩ := hasEdge_of_edge own
    have listed : childrenOf tree myId = node.children := by
      rw [childrenOf, ← same, entryOf_of_mem nodup member]
      rfl
    rw [← sameEdges]
    exact ⟨node, member, same, before, after, listed.symm.trans split, leads, others⟩
  refine ⟨enough, forwarder, fun fuel le => searchForwarder_mono le found, ?_, first⟩
  constructor
  · rintro rfl node member rfl child listed
    have noZero : 0 ∉ childrenOf tree node.id := by
      rw [childrenOf, entryOf_of_mem nodup member]
      exact noNull node member
    have seen : Edge (childrenOf tree) node.id child := edge_of_hasEdge nodup ⟨node, member, rfl, listed⟩
    rw [← sameEdges]
    exact searchForwarder_none found seen noZero
  · intro none
    by_contra proper
    obtain ⟨node, member, same, before, after, split, leads, -⟩ := first proper
    exact none node member same forwarder (by simp [split]) leads

/-- At node 1, with node 3 below node 2, a packet for node 3 goes to node 2. -/
theorem searchForwarder_reaches_twoHops :
    ∃ enough, ∀ fuel, enough ≤ fuel → searchForwarder fuel [⟨1, [2]⟩, ⟨2, [3]⟩] 1 3 = some 2 := by
  have up : ∀ p c, HasEdge [⟨1, [2]⟩, ⟨2, [3]⟩] p c → p < c := by
    simp only [HasEdge, List.mem_cons, List.not_mem_nil, or_false]
    rintro p c ⟨node, rfl | rfl, rfl, listed⟩
    · rw [List.mem_singleton.mp listed]
      decide
    · rw [List.mem_singleton.mp listed]
      decide
  have acyclic : ∀ id, ¬ Relation.TransGen (HasEdge [⟨1, [2]⟩, ⟨2, [3]⟩]) id id := by
    intro id cycle
    have climbs : ∀ {p c}, Relation.TransGen (HasEdge [⟨1, [2]⟩, ⟨2, [3]⟩]) p c → p < c := by
      intro p c path
      induction path with
      | single edge => exact up _ _ edge
      | tail _ edge ih => exact UInt8.lt_trans ih (up _ _ edge)
    exact UInt8.lt_irrefl id (climbs cycle)
  obtain ⟨enough, forwarder, found, -, -⟩ := searchForwarder_reaches (by simp [EntriesNodup])
    (by decide) acyclic 1 3
  have shallow : searchForwarder (enough + 3) [⟨1, [2]⟩, ⟨2, [3]⟩] 1 3 = some 2 :=
    searchForwarder_mono (Nat.le_add_left 3 enough) (by decide)
  refine ⟨enough, fun fuel le => ?_⟩
  rw [found fuel le, ← found (enough + 3) (Nat.le_add_right _ _), shallow]

/-! ### Absent destinations -/

theorem flatMap_children_length {n : Nat} (short : ∀ node ∈ tree, node.children.length ≤ n) :
    (tree.flatMap TreeNode.children).length ≤ tree.length * n := by
  induction tree with
  | nil => simp
  | cons node rest ih =>
      obtain ⟨first, others⟩ := List.forall_mem_cons.mp short
      have := ih others
      rw [List.flatMap_cons, List.length_append, List.length_cons, Nat.succ_mul]
      omega

/-- Twenty entries of eight children leave some id out. -/
theorem exists_absent (fits : FitsArrays tree) (myId : UInt8) :
    ∃ dstId, dstId ≠ myId ∧ ∀ p, ¬ HasEdge tree p dstId := by
  have short := flatMap_children_length fits.children
  let listed : Finset UInt8 := insert myId (tree.flatMap TreeNode.children).toFinset
  have few : listed.card < Fintype.card UInt8 := by
    have inserted : listed.card ≤ (tree.flatMap TreeNode.children).toFinset.card + 1 :=
      Finset.card_insert_le myId _
    have deduplicated := (tree.flatMap TreeNode.children).toFinset_card_le
    have entries := fits.entries
    have all : Fintype.card UInt8 = 256 := FinEnum.card_eq_fintypeCard.symm.trans FinEnum.card_UInt8
    simp only [maxTreeNodes, maxChildren] at entries short
    omega
  obtain ⟨dstId, -, absent⟩ := Finset.exists_mem_notMem_of_card_lt_card
    (show listed.card < (Finset.univ : Finset UInt8).card from few)
  simp only [listed, Finset.mem_insert, List.mem_toFinset, List.mem_flatMap, not_or] at absent
  exact ⟨dstId, absent.1, fun p ⟨node, member, _, child⟩ => absent.2 ⟨node, member, child⟩⟩

/-- The search ends for every destination exactly if no cycle of child edges can be reached. -/
theorem searchTerminates_iff_no_cycle (fits : FitsArrays tree) :
    (∀ dstId, dstId ≠ myId → SearchTerminates tree myId dstId) ↔
      ∀ id, Reaches (childrenOf tree) myId id → ¬ Relation.TransGen (Edge (childrenOf tree)) id id := by
  rw [← grounded_iff_no_cycle]
  refine ⟨fun terminates => ?_, fun grounded _ _ => searchTerminates_of_grounded grounded⟩
  obtain ⟨dstId, other, absent⟩ := exists_absent fits myId
  refine grounded_of_searchTerminates (fun path => ?_) (terminates dstId other)
  obtain ⟨p, -, last⟩ := Relation.TransGen.tail'_iff.mp path
  exact absent p (hasEdge_of_edge last)

end TreeRssi
