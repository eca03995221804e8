/-
Module: TreeRssi.Core.Table
Layer: Core
Purpose: The downstream routing table of `Lab3/tree_lib.c`: `Add_child`, which merges one edge, and the
  recursive search `Search_forwarder` / `find_in_subtree`. An array of `tree_node` entries is the list
  of its used entries, and the children of an entry the list of its used children. The recursion of
  the search has no bound in the source, so it runs on fuel here: `none` means that the fuel ran out,
  and the search terminates when some amount of fuel gives an answer.
Imports: TreeRssi.Lib.DepthFirst
Trusted boundary: human-reviewed spec
Main exports: TreeNode, addChild, findInSubtree, searchForwarder, HasEdge, childrenOf
Open obligations: none
-/
import TreeRssi.Lib.DepthFirst

namespace TreeRssi

open DepthFirst

/-- `MAX_CHILDREN`. -/
def maxChildren : Nat := 8

/-- `MAX_TREE_NODES`. -/
def maxTreeNodes : Nat := 20

/-- `struct tree_node`: an id and the ids of its direct children. -/
structure TreeNode where
  id : UInt8
  children : List UInt8
deriving DecidableEq, Repr

/-- The used entries of `routing_tree` or `recv_tree`. -/
abbrev RoutingTree := List TreeNode

/-! ### Add_child -/

/-- Register a child in one entry, unless it is there already or the entry is full. -/
def TreeNode.addChild (node : TreeNode) (child : UInt8) : TreeNode :=
  if child ∈ node.children then node
  else if node.children.length < maxChildren then { node with children := node.children ++ [child] }
  else node

/-- Register a child in the first entry of the parent; `none` when the parent has no entry. -/
def addToEntry (parent child : UInt8) : RoutingTree → Option RoutingTree
  | [] => none
  | node :: rest =>
      if node.id = parent then some (node.addChild child :: rest)
      else (addToEntry parent child rest).map (node :: ·)

/-- `Add_child`: a parent without an entry gets one, unless the array is full. -/
def addChild (tree : RoutingTree) (maxN : Nat) (parent child : UInt8) : RoutingTree :=
  match addToEntry parent child tree with
  | some updated => updated
  | none =>
      if maxN ≤ tree.length then tree
      else tree ++ [({ id := parent, children := [] } : TreeNode).addChild child]

/-! ### Search_forwarder -/

/-- The entry that the lookup loops find: the first one of the id. -/
def entryOf (tree : RoutingTree) (id : UInt8) : Option TreeNode :=
  tree.find? (·.id = id)

/-- `find_in_subtree`. The loop over the children stops at the first one whose search succeeds. -/
def findInSubtree (tree : RoutingTree) : Nat → UInt8 → UInt8 → Option Bool
  | 0, _, _ => none
  | fuel + 1, rootId, dstId =>
      if rootId = dstId then some true
      else
        match entryOf tree rootId with
        | none => some false
        | some node =>
            (findFirst (fun child => findInSubtree tree fuel child dstId) node.children).map
              Option.isSome

/-- `Search_forwarder`: the first child of `myId` whose subtree holds `dstId`, or 0. -/
def searchForwarder (fuel : Nat) (tree : RoutingTree) (myId dstId : UInt8) : Option UInt8 :=
  match entryOf tree myId with
  | none => some 0
  | some node =>
      (findFirst (fun child => findInSubtree tree fuel child dstId) node.children).map
        (·.getD 0)

/-- The search terminates: some recursion depth is enough. -/
def SearchTerminates (tree : RoutingTree) (myId dstId : UInt8) : Prop :=
  ∃ fuel forwarder, searchForwarder fuel tree myId dstId = some forwarder

/-! ### Edges -/

/-- Some entry of `parent` lists `child`. -/
def HasEdge (tree : RoutingTree) (parent child : UInt8) : Prop :=
  ∃ node ∈ tree, node.id = parent ∧ child ∈ node.children

/-- The children that the lookup loops see for an id. -/
def childrenOf (tree : RoutingTree) (id : UInt8) : List UInt8 :=
  ((entryOf tree id).map TreeNode.children).getD []

/-- No two entries have the same id. -/
def EntriesNodup (tree : RoutingTree) : Prop := (tree.map TreeNode.id).Nodup

/-- The bounds of the arrays. -/
structure FitsArrays (tree : RoutingTree) : Prop where
  entries : tree.length ≤ maxTreeNodes
  children : ∀ node ∈ tree, node.children.length ≤ maxChildren

end TreeRssi
