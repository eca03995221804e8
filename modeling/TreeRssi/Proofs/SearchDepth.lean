/-
Module: TreeRssi.Proofs.SearchDepth
Layer: Proofs
Purpose: How deep `find_in_subtree` recurses. Whatever the table holds, cycles included, no vertex is twice
  on the stack of a search that ends, and every vertex but the last has an entry of its own. So a search
  either ends with at most `tree_n_nodes` calls on the stack, or never: a limit of that depth would change
  no answer, and whether a search ends can be computed.
Imports: TreeRssi.Proofs.Search
Trusted boundary: none
Main exports: searchForwarder_within
Open obligations: none
-/
import TreeRssi.Proofs.Search

namespace TreeRssi

open DepthFirst

variable {tree : RoutingTree} {myId dstId : UInt8}

/-- The ids of the entries, except for the destination, where the search does not look at the children. -/
def innerIds (tree : RoutingTree) (dstId : UInt8) : Finset UInt8 :=
  (tree.map TreeNode.id).toFinset.erase dstId

theorem mem_innerIds {id : UInt8} (elsewhere : id ≠ dstId) (parent : childrenOf tree id ≠ []) :
    id ∈ innerIds tree dstId := by
  refine Finset.mem_erase.mpr ⟨elsewhere, List.mem_toFinset.mpr (List.mem_map.mpr ?_)⟩
  rw [childrenOf] at parent
  cases found : entryOf tree id with
  | none => simp [found] at parent
  | some node => exact ⟨node, List.mem_of_find?_eq_some found, by simpa using List.find?_some found⟩

theorem card_ids_le (tree : RoutingTree) : (tree.map TreeNode.id).toFinset.card ≤ tree.length := by
  have distinct := (tree.map TreeNode.id).toFinset_card_le
  rwa [List.length_map] at distinct

/-- A search that ends finds its forwarder with so many calls of `find_in_subtree` on the stack as the table
    has entries. -/
theorem exists_shallow {fuel : Nat} {forwarder : UInt8}
    (found : searchForwarder fuel tree myId dstId = some forwarder) :
    ∃ forwarder', searchForwarder tree.length tree myId dstId = some forwarder' := by
  simp only [searchForwarder_eq] at found ⊢
  obtain ⟨r, asked, -⟩ := Option.map_eq_some_iff.mp found
  suffices shallow : ∃ r', findFirst (search (childrenOf tree) dstId tree.length) (childrenOf tree myId) =
      some r' by
    obtain ⟨r', asked'⟩ := shallow
    exact ⟨r'.getD 0, by rw [asked']; rfl⟩
  have ids := card_ids_le tree
  by_cases here : myId = dstId
  · -- The children are asked from outside, and none of them comes back to the entry of `my_id`.
    by_cases parent : childrenOf tree myId = []
    · exact ⟨none, by rw [parent]; rfl⟩
    · have own : dstId ∈ (tree.map TreeNode.id).toFinset := by
        rw [childrenOf] at parent
        cases entry : entryOf tree myId with
        | none => simp [entry] at parent
        | some node =>
            have same : node.id = myId := by simpa using List.find?_some entry
            exact List.mem_toFinset.mpr
              (List.mem_map.mpr ⟨node, List.mem_of_find?_eq_some entry, same.trans here⟩)
      have fewer : (innerIds tree dstId).card + 1 ≤ tree.length := by
        rw [innerIds, Finset.card_erase_add_one own]
        exact ids
      exact ⟨r, findFirst_mono
        (fun v b answer => search_mono fewer (search_depth (fun _ => mem_innerIds) answer)) asked⟩
  · -- The search below the entry of `my_id` is one call less deep than a search from it.
    have whole : search (childrenOf tree) dstId (fuel + 1) myId = some r.isSome := by
      rw [search, if_neg here, asked]
      rfl
    have covers : ∀ id, id ≠ dstId → childrenOf tree id ≠ [] → id ∈ innerIds tree dstId :=
      fun _ => mem_innerIds
    have shallow := search_depth covers whole
    rw [search, if_neg here] at shallow
    obtain ⟨r', asked', -⟩ := Option.map_eq_some_iff.mp shallow
    have fewer : (innerIds tree dstId).card ≤ tree.length :=
      Nat.le_trans (Finset.card_le_card (Finset.erase_subset _ _)) ids
    exact ⟨r', findFirst_mono (fun v b => search_mono fewer) asked'⟩

/-- `Search_forwarder` gives an answer at all exactly if it gives it with no more calls of
    `find_in_subtree` on the stack than the table has entries. -/
theorem searchForwarder_within (tree : RoutingTree) (myId dstId forwarder : UInt8) :
    (∃ fuel, searchForwarder fuel tree myId dstId = some forwarder) ↔
      searchForwarder tree.length tree myId dstId = some forwarder := by
  refine ⟨fun ⟨fuel, found⟩ => ?_, fun found => ⟨_, found⟩⟩
  obtain ⟨forwarder', shallow⟩ := exists_shallow found
  have deep := searchForwarder_mono (Nat.le_max_left fuel tree.length) found
  rw [searchForwarder_mono (Nat.le_max_right fuel tree.length) shallow] at deep
  exact shallow.trans deep

-- A chain of three entries needs all three calls.
example : searchForwarder 3 [⟨1, [2]⟩, ⟨2, [3]⟩, ⟨3, [4]⟩] 1 9 = some 0 ∧
    searchForwarder 2 [⟨1, [2]⟩, ⟨2, [3]⟩, ⟨3, [4]⟩] 1 9 = none := by decide

end TreeRssi
