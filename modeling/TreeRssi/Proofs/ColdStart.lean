/-
Module: TreeRssi.Proofs.ColdStart
Layer: Proofs
Purpose: The whole protocol from a cold start. Beacons over constant links settle the best parents, which
  then form a tree of the network; no later beacon moves them, so control messages go up that tree and
  fill the tables round by round; and on what is reached then a packet between any two nodes takes the
  tree distance. The three planes run in one network and interleave as they like.
Imports: TreeRssi.Proofs.BeaconRounds, TreeRssi.Proofs.ControlRounds, TreeRssi.Proofs.Delivery, Mathlib
  (sums over finite sets)
Trusted boundary: none
Main exports: PlainAddrs, OnAir, beaconTrace, run_beacons, Settled.exists_tree, Settled.stays, Steady,
  Routed, fitsSubtree_of_small, LinksFit, Grown, run_grown, cold_start_delivers
Open obligations: none
-/
import Mathlib.Algebra.BigOperators.Ring.Finset
import Mathlib.Algebra.Order.BigOperators.Group.Finset
import TreeRssi.Proofs.BeaconRounds
import TreeRssi.Proofs.ControlRounds
import TreeRssi.Proofs.Delivery

namespace TreeRssi

open CText LabelledRun BestPath

/-- The addresses of the network are those that the program makes of an id: the second byte is 0. Node 1
    is one of them, and the null address is not. -/
structure PlainAddrs (nodes : Finset LinkAddr) : Prop where
  plain : ∀ i ∈ nodes, i.u8_1 = 0
  root : ⟨1, 0⟩ ∈ nodes
  noNull : linkaddrNull ∉ nodes

variable {nodes : Finset LinkAddr} {links : Links nodes} {packetbufSize : Nat} {net net' mid : Net}
  {trace : List (Net × NetAction)}

namespace PlainAddrs

theorem eq (addrs : PlainAddrs nodes) {i : LinkAddr} (member : i ∈ nodes) : ⟨i.u8_0, 0⟩ = i := by
  rw [← addrs.plain i member]

theorem distinct (addrs : PlainAddrs nodes) : DistinctIds nodes := by
  intro a aMem b bMem same
  rw [← addrs.eq aMem, ← addrs.eq bMem, same]

theorem nonzero (addrs : PlainAddrs nodes) : ∀ i ∈ nodes, i.u8_0 ≠ 0 := by
  intro i member zero
  have null : i = linkaddrNull := by rw [← addrs.eq member, zero]; rfl
  exact addrs.noNull (null ▸ member)

theorem eq_root (addrs : PlainAddrs nodes) {i : LinkAddr} (isRoot : IsRoot nodes i) : i = ⟨1, 0⟩ := by
  rw [← addrs.eq isRoot.1, isRoot.2]

end PlainAddrs

/-! ### The neighbour plane of a run -/

/-- Beacons are heard over the links; everything else is free. -/
def OnAir (links : Links nodes) (net : Net) : NetAction → Prop
  | .radio action => OverLinks links net.beacons action
  | _ => True

/-- The step of the neighbour plane, if it is one. -/
def NetAction.radio? : NetAction → Option BeaconAction
  | .radio action => some action
  | _ => none

/-- The neighbour plane in a history. -/
def beaconTrace (trace : List (Net × NetAction)) : List (BeaconNet × BeaconAction) :=
  trace.filterMap fun e => e.2.radio?.map fun action => (e.1.beacons, action)

/-- Only the steps of the neighbour plane touch it. -/
theorem step_beacons {action : NetAction} (stepped : net.step nodes packetbufSize action = some net')
    (other : action.radio? = none) : net'.beacons = net.beacons := by
  cases step_stepped stepped with
  | radio => cases other
  | sent | received | lost | delivered => rfl

/-- In a run of the network the neighbour plane runs as it does without a control plane. -/
theorem run_beacons {ok : Net → NetAction → Prop} (allow : BeaconNet → BeaconAction → Prop)
    (allowed : ∀ net action, ok net (.radio action) → allow net.beacons action)
    (run : Run (Net.step nodes packetbufSize) ok mid trace net) :
    Run (BeaconNet.step nodes) allow mid.beacons (beaconTrace trace) net.beacons := by
  refine run.project (I := fun _ => True) Net.beacons NetAction.radio? trivial (fun _ _ _ _ _ _ => trivial)
    (fun s l s' action _ fine stepped label => ?_)
    (fun s l s' _ _ stepped label => step_beacons stepped label)
  cases l with
  | radio own =>
      cases label
      obtain ⟨beacons, step, rfl⟩ := Option.map_eq_some_iff.mp stepped
      exact ⟨allowed s _ fine, step⟩
  | sendControl | receive | lose | deliver => cases label

/-! ### The tree of the best parents -/

/-- In a settled state in which every node has a path, the best parents form a tree of the network, and
    every parent is heard by its child. -/
theorem Settled.exists_tree {beacons : BeaconNet} (settled : Settled links beacons)
    (few : links.FewNeighbours) (inv : OverLinksInv links beacons) (addrs : PlainAddrs nodes)
    (connected : ∀ i ∈ nodes, ∃ s, PathSum links.rssi (IsRoot nodes) i s ∧ noPath < s) :
    ∃ T : ParentTree LinkAddr, NetworkTree nodes T ∧ (∀ i ∈ nodes, T.parent i = bestParent? beacons i) ∧
      ∀ c p, T.Up c p → (links.rssi p c).isSome := by
  have hasLink : ∀ i ∈ nodes, ∀ u, bestParent? beacons i = some u →
      u ∈ nodes ∧ (links.rssi u i).isSome := by
    intro i member u up
    have notRoot : i.u8_0 ≠ 1 := by
      intro isRoot
      rw [bestParent?, if_pos (inv.kept.root i isRoot)] at up
      cases up
    obtain ⟨s, path, above⟩ := connected i member
    have lower := settled.dominates few inv.kept inv.sums path above
    rw [BeaconNet.announced_of_not_root notRoot] at lower
    have range := (inv.kept.chosen i notRoot).listed.range
    obtain ⟨v, x, inNet, up', link, -⟩ := settled.tight few inv.kept inv.sums addrs.noNull notRoot
      ⟨Int.lt_of_lt_of_le above lower, range.2⟩
    cases up.symm.trans up'
    exact ⟨inNet, Option.isSome_iff_exists.mpr ⟨x, link⟩⟩
  have climbs : ∀ {i s}, ParentSum links.rssi (bestParent? beacons) (IsRoot nodes) i s →
      Relation.ReflTransGen (fun c p => (if c ∈ nodes then bestParent? beacons c else none) = some p) i
        ⟨1, 0⟩ := by
    intro i s path
    induction path with
    | root isRoot =>
        rw [addrs.eq_root isRoot]
    | step _ up link ih =>
        refine .head ?_ ih
        rw [if_pos (links.ends link).2.1, up]
  refine ⟨{ verts := {i | i ∈ nodes}, root := ⟨1, 0⟩,
            parent := fun i => if i ∈ nodes then bestParent? beacons i else none,
            root_mem := addrs.root, parent_root := ?_, parent_mem := ?_, reaches_root := ?_ }, ?_, ?_, ?_⟩
  · rw [if_pos addrs.root, bestParent?, if_pos (inv.kept.root ⟨1, 0⟩ rfl)]
  · intro c p up
    obtain ⟨member, up⟩ := Option.ite_none_right_eq_some.mp up
    exact ⟨member, (hasLink c member p up).1⟩
  · intro i member
    by_cases isRoot : i.u8_0 = 1
    · rw [addrs.eq_root ⟨member, isRoot⟩]
    · obtain ⟨s, path, above⟩ := connected i member
      obtain ⟨M, best⟩ := exists_greatest_pathSum links path
      exact climbs ((settled.optimal few inv addrs.noNull isRoot).1 M best
        (Int.lt_of_lt_of_le above (best.2 path))).2
  · exact ⟨fun i => Iff.rfl, rfl, addrs.distinct, addrs.nonzero⟩
  · intro i member
    exact if_pos member
  · intro c p up
    obtain ⟨member, up⟩ := Option.ite_none_right_eq_some.mp up
    exact (hasLink c member p up).2

/-- In a settled state a beacon over the links changes nothing. -/
theorem Settled.same {beacons after : BeaconNet} {action : BeaconAction} (settled : Settled links beacons)
    (allowed : OverLinks links beacons action)
    (stepped : BeaconNet.step nodes beacons action = some after) : after.parents = beacons.parents := by
  funext j
  have atNode := step_node stepped j
  generalize after.parents j = state at atNode
  cases atNode with
  | idle => rfl
  | @heard sender heard rssi member => exact settled sender j rssi (allowed _ member)
  | expired => exact allowed.elim

/-- Settled parents stay as they are. -/
theorem Settled.parents_stay (settled : Settled links mid.beacons)
    (run : Run (Net.step nodes packetbufSize) (OnAir links) mid trace net) :
    net.beacons.parents = mid.beacons.parents := by
  refine (run_beacons (OverLinks links) (fun _ _ allowed => allowed) run).invariant
    (I := fun beacons => beacons.parents = mid.beacons.parents) rfl ?_
  intro beacons action after same allowed stepped
  have settled' : Settled links beacons := by
    intro i j x link
    rw [BeaconNet.hear, same]
    exact settled i j x link
  rw [settled'.same allowed stepped, same]

theorem Settled.stays (settled : Settled links mid.beacons)
    (run : Run (Net.step nodes packetbufSize) (OnAir links) mid trace net) :
    Settled links net.beacons ∧ ∀ i, net.best i = mid.best i := by
  have same := settled.parents_stay run
  refine ⟨fun i j x link => ?_, fun i => ?_⟩
  · rw [BeaconNet.hear, same]
    exact settled i j x link
  · rw [Net.best, Net.best, same]

/-! ### The control plane of a run -/

/-- Control messages go to nobody but the best parents that `mid` has. -/
def Steady (mid : Net) (trace : List (Net × NetAction)) : Prop :=
  ∀ pre node, (pre, NetAction.sendControl node) ∈ trace →
    pre.best node = linkaddrNull ∨ pre.best node = mid.best node

/-- A step that sends a control message is one of a node of the network, with a best parent. -/
theorem sends_cases {node : LinkAddr} {frame : Frame}
    (stepped : net.step nodes packetbufSize (.sendControl node) = some net')
    (sent : (net.sendControl packetbufSize node).2 = some frame) :
    node ∈ nodes ∧ net.best node ≠ linkaddrNull := by
  obtain ⟨live, -⟩ := Option.ite_none_right_eq_some.mp stepped
  refine ⟨live.1, fun null => ?_⟩
  rw [Net.sendControl, sendRoutingTable, if_pos null] at sent
  cases sent

/-- Such control messages go up the tree of those parents. -/
theorem Steady.upwards {start : Net} {T : ParentTree LinkAddr} (steady : Steady mid trace)
    (parents : ∀ i ∈ nodes, T.parent i = bestParent? mid.beacons i)
    (run : Run (Net.step nodes packetbufSize) (OnAir links) start trace net) :
    UpwardRun nodes T packetbufSize start trace net := by
  refine run.guard fun (pre, action) member => ?_
  obtain ⟨-, post, -, -, stepped⟩ := run.of_mem member
  cases action with
  | sendControl node =>
      intro frame sent
      obtain ⟨inNet, proper⟩ := sends_cases stepped sent
      have same := (steady pre node member).resolve_left proper
      rw [ParentTree.Up, parents node inNet, bestParent?, same]
      rw [same] at proper
      exact if_neg proper
  | radio | receive | lose | deliver => trivial

/-- The routes of the network are those of a tree of its ids. -/
structure Routed (nodes : Finset LinkAddr) (T : ParentTree UInt8) (net : Net) : Prop where
  verts : ∀ id, id ∈ T.verts ↔ ⟨id, 0⟩ ∈ nodes
  parents : ∀ c p, T.Up c p → net.best ⟨c, 0⟩ = ⟨p, 0⟩
  converged : Converged T (fun id => net.table ⟨id, 0⟩) (fun id => net.best ⟨id, 0⟩)

/-- The tree of the ids of plain addresses. -/
def idTree (T : ParentTree LinkAddr) (back : ∀ v ∈ T.verts, ⟨v.u8_0, 0⟩ = v) : ParentTree UInt8 :=
  T.rename (fun id => ⟨id, 0⟩) LinkAddr.u8_0 back fun _ => rfl

theorem NetworkTree.back {T : ParentTree LinkAddr} (tree : NetworkTree nodes T) (addrs : PlainAddrs nodes) :
    ∀ v ∈ T.verts, (⟨v.u8_0, 0⟩ : LinkAddr) = v := fun v vertex => addrs.eq ((tree.verts v).mp vertex)

/-- The tables that hold the edges of their own subtrees make the network converged. -/
theorem routed_of_subtrees {T : ParentTree LinkAddr} (addrs : PlainAddrs nodes)
    (tree : NetworkTree nodes T) (parents : ∀ i ∈ nodes, T.parent i = bestParent? net.beacons i)
    (ok : ∀ i, TableOk (net.table i))
    (edges : ∀ i ∈ nodes, ∀ p c, HasEdge (net.table i) p c ↔ SubtreeEdge T i p c) :
    Routed nodes (idTree T (tree.back addrs)) net := by
  have back := tree.back addrs
  have vertOf : ∀ id : UInt8, id ∈ (idTree T back).verts ↔ ⟨id, 0⟩ ∈ nodes := fun id => tree.verts ⟨id, 0⟩
  have best : ∀ {i p}, T.Up i p → net.best i = p := by
    intro i p up
    have same := (parents i ((tree.verts i).mp (T.parent_mem up).1)).symm.trans up
    exact (Option.ite_none_left_eq_some.mp same).2 |> Option.some.inj
  have rootAddr : T.root = ⟨1, 0⟩ := by
    rw [← back T.root T.root_mem, tree.root]
  refine ⟨vertOf, fun c p up => best (ParentTree.rename_up.mp up), ?_⟩
  refine ⟨tree.root, fun zero => addrs.noNull ((vertOf 0).mp zero), ?_, ?_, fun i _ => (ok ⟨i, 0⟩).ids, ?_⟩
  · intro i p up
    rw [best (ParentTree.rename_up.mp up)]
  · change net.best ⟨T.root.u8_0, 0⟩ = linkaddrNull
    rw [tree.root]
    have none := (parents ⟨1, 0⟩ addrs.root).symm.trans (rootAddr ▸ T.parent_root)
    by_contra proper
    have some_ : bestParent? net.beacons ⟨1, 0⟩ = some (net.best ⟨1, 0⟩) := if_neg proper
    cases none.symm.trans some_
  · intro i vertex p c
    rw [edges ⟨i, 0⟩ ((vertOf i).mp vertex), idTree, ParentTree.rename_up, ParentTree.rename_below]
    constructor
    · rintro ⟨parent, child, rfl, rfl, up, below⟩
      obtain ⟨childMem, parentMem⟩ := T.parent_mem up
      rw [back parent parentMem, back child childMem]
      exact ⟨up, below⟩
    · rintro ⟨up, below⟩
      exact ⟨⟨p, 0⟩, ⟨c, 0⟩, rfl, rfl, up, below⟩

/-! ### Small networks -/

/-- The children of a node in the tree. -/
def kids (nodes : Finset LinkAddr) (T : ParentTree LinkAddr) (p : LinkAddr) : Finset LinkAddr :=
  nodes.filter fun c => T.parent c = some p

open Classical in
/-- The nodes of a subtree that have children. -/
noncomputable def inner (nodes : Finset LinkAddr) (T : ParentTree LinkAddr) (i : LinkAddr) :
    Finset LinkAddr :=
  nodes.filter fun p => T.Below p i ∧ (kids nodes T p).Nonempty

/-- The edges of a subtree as a table. -/
noncomputable def subtreeTable (nodes : Finset LinkAddr) (T : ParentTree LinkAddr) (i : LinkAddr) :
    RoutingTree :=
  (inner nodes T i).toList.map fun p => ⟨p.u8_0, (kids nodes T p).toList.map LinkAddr.u8_0⟩

section
variable {T : ParentTree LinkAddr}

theorem mem_kids (tree : NetworkTree nodes T) {c p : LinkAddr} : c ∈ kids nodes T p ↔ T.Up c p := by
  rw [kids, Finset.mem_filter]
  exact ⟨fun h => h.2, fun up => ⟨(tree.verts c).mp (T.parent_mem up).1, up⟩⟩

theorem mem_inner {p i : LinkAddr} :
    p ∈ inner nodes T i ↔ p ∈ nodes ∧ T.Below p i ∧ (kids nodes T p).Nonempty := by
  simp only [inner, Finset.mem_filter]

theorem inner_subset (i : LinkAddr) : inner nodes T i ⊆ nodes := fun _ inside => (mem_inner.mp inside).1

theorem kids_subset (p : LinkAddr) : kids nodes T p ⊆ nodes := Finset.filter_subset _ _

theorem mem_subtreeTable {i : LinkAddr} {node : TreeNode} : node ∈ subtreeTable nodes T i ↔
    ∃ p ∈ inner nodes T i, ⟨p.u8_0, (kids nodes T p).toList.map LinkAddr.u8_0⟩ = node := by
  simp only [subtreeTable, List.mem_map, Finset.mem_toList]

theorem hasEdge_subtreeTable (tree : NetworkTree nodes T) {i : LinkAddr} {p c : UInt8} :
    HasEdge (subtreeTable nodes T i) p c ↔ SubtreeEdge T i p c := by
  constructor
  · rintro ⟨node, member, rfl, listed⟩
    obtain ⟨parent, inside, rfl⟩ := mem_subtreeTable.mp member
    obtain ⟨child, isKid, rfl⟩ := List.mem_map.mp listed
    exact ⟨parent, child, rfl, rfl, (mem_kids tree).mp (Finset.mem_toList.mp isKid),
      (mem_inner.mp inside).2.1⟩
  · rintro ⟨parent, child, rfl, rfl, up, below⟩
    have isKid := (mem_kids tree).mpr up
    have inside := mem_inner.mpr ⟨(tree.verts parent).mp (T.parent_mem up).2, below, child, isKid⟩
    exact ⟨_, mem_subtreeTable.mpr ⟨parent, inside, rfl⟩, rfl,
      List.mem_map_of_mem (Finset.mem_toList.mpr isKid)⟩

/-- Ids of different nodes are different. -/
theorem ids_nodup (tree : NetworkTree nodes T) {s : Finset LinkAddr} (inside : s ⊆ nodes) :
    (s.toList.map LinkAddr.u8_0).Nodup := by
  refine List.Nodup.map_on (fun a aMem b bMem same => ?_) s.nodup_toList
  exact tree.distinct a (inside (Finset.mem_toList.mp aMem)) b (inside (Finset.mem_toList.mp bMem)) same

/-- No node is a child of two. -/
theorem sum_kids_le (nodes : Finset LinkAddr) (T : ParentTree LinkAddr) (i : LinkAddr) :
    ((inner nodes T i).sum fun p => (kids nodes T p).card) ≤ nodes.card := by
  rw [← Finset.card_biUnion]
  · exact Finset.card_le_card (Finset.biUnion_subset.mpr fun p _ => kids_subset p)
  · intro p _ q _ differ
    refine Finset.disjoint_left.mpr fun c first second => differ ?_
    exact Option.some.inj ((Finset.mem_filter.mp first).2.symm.trans (Finset.mem_filter.mp second).2)

/-- An entry takes four bytes for each id at most. -/
theorem subtreeTable_text (nodes : Finset LinkAddr) (T : ParentTree LinkAddr) (i : LinkAddr) :
    (fullText (subtreeTable nodes T i)).length ≤ 8 * nodes.card := by
  have entry : ∀ p ∈ inner nodes T i,
      (entryText ⟨p.u8_0, (kids nodes T p).toList.map LinkAddr.u8_0⟩).length ≤
        4 + (kids nodes T p).card * 4 := by
    intro p inside
    obtain ⟨c, isKid⟩ := (mem_inner.mp inside).2.2
    rw [entryText_length]
    · have cost : ∀ id : UInt8, childCost id ≤ 4 := fun id => Nat.succ_le_succ (decimal_u8_length id)
      have children := List.sum_le_card_nsmul (((kids nodes T p).toList.map LinkAddr.u8_0).map childCost) 4
        (by simpa using fun a _ => cost (LinkAddr.u8_0 a))
      simp only [List.length_map, Finset.length_toList, smul_eq_mul] at children
      exact Nat.add_le_add (cost _) children
    · exact List.ne_nil_of_mem (List.mem_map_of_mem (Finset.mem_toList.mpr isKid))
  rw [fullText, List.length_flatMap, subtreeTable, List.map_map, Finset.sum_map_toList]
  calc _ ≤ (inner nodes T i).sum fun p => 4 + (kids nodes T p).card * 4 := Finset.sum_le_sum entry
    _ = (inner nodes T i).card * 4 + ((inner nodes T i).sum fun p => (kids nodes T p).card) * 4 := by
        rw [Finset.sum_add_distrib, Finset.sum_const, Finset.sum_mul, smul_eq_mul]
    _ ≤ 8 * nodes.card := by
        have entries : (inner nodes T i).card ≤ nodes.card := Finset.card_le_card (inner_subset i)
        have edges := sum_kids_le nodes T i
        omega

/-- In a network of at most nine nodes every tree fits. -/
theorem fitsSubtree_of_small (small : nodes.card ≤ 9) (tree : NetworkTree nodes T) (i : LinkAddr) :
    FitsSubtree T i := by
  have entries : (inner nodes T i).card ≤ nodes.card := Finset.card_le_card (inner_subset i)
  have text := subtreeTable_text nodes T i
  refine ⟨subtreeTable nodes T i, ⟨⟨?_, fun node member => ?_⟩, ?_, fun node member => ?_⟩,
    fun p c => hasEdge_subtreeTable tree, ?_⟩
  · simp only [subtreeTable, List.length_map, Finset.length_toList, maxTreeNodes]
    omega
  · obtain ⟨p, inside, rfl⟩ := mem_subtreeTable.mp member
    -- A node is no child of itself.
    have proper : kids nodes T p ⊂ nodes := Finset.ssubset_iff_subset_ne.mpr
      ⟨kids_subset p, fun all => by
        have own := (mem_inner.mp inside).1
        rw [← all, mem_kids tree] at own
        exact own.ne rfl⟩
    have fewer := Finset.card_lt_card proper
    simp only [List.length_map, Finset.length_toList, maxChildren]
    omega
  · rw [EntriesNodup, subtreeTable, List.map_map]
    exact ids_nodup tree (inner_subset i)
  · obtain ⟨p, -, rfl⟩ := mem_subtreeTable.mp member
    exact ids_nodup tree (kids_subset p)
  · simp only [treeSerialBuf]
    omega

end

/-! ### From a cold start -/

/-- Every tree of parents that the links allow fits the tables and the messages. -/
def LinksFit (links : Links nodes) : Prop :=
  ∀ T, NetworkTree nodes T → (∀ c p, T.Up c p → (links.rssi p c).isSome) → ∀ i ∈ nodes, FitsSubtree T i

/-- Settled parents that form a tree, where control messages have gone up this tree only. -/
structure Grown (links : Links nodes) (T : ParentTree LinkAddr) (packetbufSize : Nat) (net : Net) :
    Prop where
  settled : Settled links net.beacons
  tree : NetworkTree nodes T
  parents : ∀ i ∈ nodes, T.parent i = bestParent? net.beacons i
  reach : UpwardReach nodes T packetbufSize net

namespace Grown

variable {T : ParentTree LinkAddr}

/-- The parents stay, so all control messages go up the tree from then on. -/
theorem upwards (grown : Grown links T packetbufSize mid)
    (run : Run (Net.step nodes packetbufSize) (OnAir links) mid trace net) :
    UpwardRun nodes T packetbufSize mid trace net := by
  have steady : Steady mid trace := by
    intro pre node member
    obtain ⟨before, post, earlier, -, -⟩ := run.of_mem member
    exact .inr ((grown.settled.stays earlier).2 node)
  exact steady.upwards grown.parents run

theorem run (grown : Grown links T packetbufSize mid)
    (run : Run (Net.step nodes packetbufSize) (OnAir links) mid trace net) :
    Grown links T packetbufSize net := by
  obtain ⟨settled, stays⟩ := grown.settled.stays run
  refine ⟨settled, grown.tree, fun i member => ?_, grown.reach.run (grown.upwards run)⟩
  have best := stays i
  rw [Net.best, Net.best] at best
  rw [grown.parents i member, bestParent?, bestParent?, best]

/-- Once every edge is known the routes are those of the tree. -/
theorem routed (grown : Grown links T packetbufSize net) (known : Known nodes T nodes.card net)
    (addrs : PlainAddrs nodes) (big : 128 ≤ packetbufSize) :
    Routed nodes (idTree T (grown.tree.back addrs)) net := by
  have honest := grown.reach.honest big
  exact routed_of_subtrees addrs grown.tree grown.parents honest.ok
    (known.edges honest grown.tree fun i member => Nat.le_of_lt (grown.tree.depth_lt_card member))

end Grown

/-- A cold start: after the rounds of beacons the tree has grown, and after the rounds of reports every edge
    of it is known. -/
theorem run_grown (links : Links nodes) (few : links.FewNeighbours) (addrs : PlainAddrs nodes)
    (connected : ∀ i ∈ nodes, ∃ s, PathSum links.rssi (IsRoot nodes) i s ∧ noPath < s)
    (fit : LinksFit links) (big : 128 ≤ packetbufSize) {early late : List (Net × NetAction)}
    (first : Run (Net.step nodes packetbufSize) (OnAir links) (Net.boot BeaconNet.cold) early mid)
    (beacons : Rounds (BeaconRound links) nodes.card (beaconTrace early)) (steady : Steady mid early)
    (second : Run (Net.step nodes packetbufSize) (OnAir links) mid late net)
    (reports : Rounds (ControlRound nodes packetbufSize) nodes.card late) :
    ∃ T, Grown links T packetbufSize net ∧ Known nodes T nodes.card net := by
  obtain ⟨inv, settled⟩ := run_settled few addrs.noNull
    (run_beacons (OverLinks links) (fun _ _ allowed => allowed) first) beacons
  obtain ⟨T, tree, parents, heard⟩ := settled.exists_tree few inv addrs connected
  have grown : Grown links T packetbufSize mid :=
    ⟨settled, tree, parents, BeaconNet.cold, early, steady.upwards parents first⟩
  exact ⟨T, grown.run second, run_known big tree (fit T tree heard) grown.reach (grown.upwards second) reports⟩

/-- From a cold start over constant links that connect every node and fit the pools, the tables and the
    messages, let as many rounds of beacons pass as there are nodes, with no control message sent to any but
    the parents that are best at the end; and then as many rounds of reports, whatever else is heard, sent,
    lost or overwritten. Then the best
    parents form a tree of the network, and a packet from any node is delivered at any other in the
    distance of that tree, and dropped at node 1 where its destination is none of the nodes. -/
theorem cold_start_delivers (links : Links nodes) (few : links.FewNeighbours) (addrs : PlainAddrs nodes)
    (connected : ∀ i ∈ nodes, ∃ s, PathSum links.rssi (IsRoot nodes) i s ∧ noPath < s)
    (fit : LinksFit links) (big : 128 ≤ packetbufSize) {early late : List (Net × NetAction)}
    (first : Run (Net.step nodes packetbufSize) (OnAir links) (Net.boot BeaconNet.cold) early mid)
    (beacons : Rounds (BeaconRound links) nodes.card (beaconTrace early)) (steady : Steady mid early)
    (second : Run (Net.step nodes packetbufSize) (OnAir links) mid late net)
    (reports : Rounds (ControlRound nodes packetbufSize) nodes.card late) :
    ∃ T : ParentTree UInt8, (∀ id, id ∈ T.verts ↔ ⟨id, 0⟩ ∈ nodes) ∧
      (∀ c p, T.Up c p → net.best ⟨c, 0⟩ = ⟨p, 0⟩) ∧
      ∀ id, ⟨id, 0⟩ ∈ nodes → ∀ dstId,
        ((⟨dstId, 0⟩ : LinkAddr) ∈ nodes →
          Ends (fun id => net.table ⟨id, 0⟩) (fun id => net.best ⟨id, 0⟩) dstId id
            (.delivered dstId (T.graph.dist id dstId))) ∧
        ((⟨dstId, 0⟩ : LinkAddr) ∉ nodes → ∃ hops,
          Ends (fun id => net.table ⟨id, 0⟩) (fun id => net.best ⟨id, 0⟩) dstId id (.dropped 1 hops)) := by
  obtain ⟨T, grown, known⟩ := run_grown links few addrs connected fit big first beacons steady second reports
  have routed := grown.routed known addrs big
  refine ⟨_, routed.verts, routed.parents, fun id member dstId => ⟨fun inside => ?_, fun outside => ?_⟩⟩
  · have vertex := (routed.verts dstId).mpr inside
    obtain ⟨n, route⟩ := (idTree T _).exists_route vertex ((routed.verts id).mpr member)
    rw [← (idTree T _).route_length_eq_dist vertex route]
    exact routed.converged.delivers ((routed.verts id).mpr member) route
  · exact routed.converged.drops ((routed.verts id).mpr member) fun vertex =>
      outside ((routed.verts dstId).mp vertex)

/-- Two beacons of node 1 and two reports of node 2: a packet from node 1 is delivered at node 2. -/
theorem cold_start_delivers_twoNodes :
    ∃ trace net hops, Run (Net.step {⟨1, 0⟩, ⟨2, 0⟩} 128) (OnAir oneLink) (Net.boot BeaconNet.cold) trace
        net ∧ Ends (fun id => net.table ⟨id, 0⟩) (fun id => net.best ⟨id, 0⟩) 2 1 (.delivered 2 hops) := by
  let nodes : Finset LinkAddr := {⟨1, 0⟩, ⟨2, 0⟩}
  let step := Net.step nodes 128
  let heard : List (LinkAddr × Int) := [(⟨2, 0⟩, -10)]
  let one : Net := { Net.boot BeaconNet.cold with beacons := BeaconNet.cold.broadcast ⟨1, 0⟩ heard }
  let mid : Net := { one with beacons := one.beacons.broadcast ⟨1, 0⟩ heard }
  have addrs : PlainAddrs nodes := ⟨by decide, by decide, by decide⟩
  have connected : ∀ i ∈ nodes, ∃ s, PathSum oneLink.rssi (IsRoot nodes) i s ∧ noPath < s := by
    intro i member
    have root : PathSum oneLink.rssi (IsRoot nodes) ⟨1, 0⟩ 0 := .root ⟨by decide, rfl⟩
    have which : i = ⟨1, 0⟩ ∨ i = ⟨2, 0⟩ := by simpa [nodes] using member
    rcases which with rfl | rfl
    · exact ⟨0, root, by decide⟩
    · exact ⟨0 + -10, root.step rfl, by decide⟩
  have fit : LinksFit oneLink := fun T tree _ i _ => fitsSubtree_of_small (by decide) tree i
  -- Two beacons.
  have start : Run step (OnAir oneLink) (Net.boot BeaconNet.cold) [] (Net.boot BeaconNet.cold) := .nil
  have allowed : ∀ net, OnAir oneLink net (.radio (.beacon ⟨1, 0⟩ heard)) := by
    simp [OnAir, OverLinks, oneLink, heard]
  have first : Run step (OnAir oneLink) (Net.boot BeaconNet.cold) [(one, .radio (.beacon ⟨1, 0⟩ heard)),
      (Net.boot BeaconNet.cold, .radio (.beacon ⟨1, 0⟩ heard))] mid :=
    (start.snoc (allowed _) rfl).snoc (allowed _) rfl
  have beacons := ((Rounds.start []).more (oneLink_round BeaconNet.cold)).more (oneLink_round one.beacons)
  -- Two reports.
  have sent : (mid.sendControl 128 ⟨2, 0⟩).2 = some leafReport := by decide +kernel
  have reported : (execute step mid reportSteps).map (fun net => (net.sendControl 128 ⟨2, 0⟩).2) =
      some (some leafReport) := by
    decide +kernel
  have reported' : (execute step mid (reportSteps ++ reportSteps)).isSome := by decide +kernel
  obtain ⟨more, executed, sent'⟩ := Option.map_eq_some_iff.mp reported
  obtain ⟨net, executed'⟩ := Option.isSome_iff_exists.mp reported'
  rw [execute_append, executed, Option.bind_some] at executed'
  have free : ∀ s, ∀ l ∈ reportSteps, OnAir oneLink s l := by simp [reportSteps, OnAir]
  have second := (Run.of_execute (OnAir oneLink) free executed).extend free executed'
  have reports := ((Rounds.start []).more (report_round sent executed)).more (report_round sent' executed')
  rw [List.append_nil] at reports
  obtain ⟨T, -, -, delivers⟩ := cold_start_delivers oneLink oneLink_few addrs connected fit (by decide)
    first beacons (by intro pre node member; simp at member) second reports
  exact ⟨_, net, _, first.append second, (delivers 1 (by decide) 2).1 (by decide)⟩

end TreeRssi
