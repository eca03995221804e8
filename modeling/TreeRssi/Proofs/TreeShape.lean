/-
Module: TreeRssi.Proofs.TreeShape
Layer: Proofs
Purpose: The shape of the routing tables in a network whose nodes move. No edge is ever retracted, so the
  report of a node to a new parent leaves it listed under the old one too, and a table can even list its
  own node. Neither happens without such a report: a node listed twice has reported to two parents, and a
  node that lists itself is where a circle of reports closes.
Imports: TreeRssi.Proofs.ForwardingLoops
Trusted boundary: none
Main exports: OneParent, OwnIdFree, TreeRuns, treeShape_lost, routingTable_shape
Open obligations: none
-/
import TreeRssi.Proofs.ForwardingLoops

namespace TreeRssi

open CText LabelledRun

/-- No id is in the children lists of two entries. -/
def OneParent (tree : RoutingTree) : Prop :=
  tree.Pairwise fun node later => ∀ c ∈ node.children, c ∉ later.children

/-- The own id is in no children list. -/
def OwnIdFree (myId : UInt8) (tree : RoutingTree) : Prop := ∀ node ∈ tree, myId ∉ node.children

instance (tree : RoutingTree) : Decidable (OneParent tree) :=
  inferInstanceAs (Decidable (List.Pairwise _ _))

instance (myId : UInt8) (tree : RoutingTree) : Decidable (OwnIdFree myId tree) :=
  inferInstanceAs (Decidable (∀ node ∈ tree, _))

/-- The tables of every node have a property in every run of honest nodes in which the best parents form a
    tree at every instant. The run starts when the beacons have formed the first of these trees. -/
def TreeRuns (P : UInt8 → RoutingTree → Prop) : Prop :=
  ∀ (nodes : Finset LinkAddr) (packetbufSize : Nat), DistinctIds nodes → (∀ i ∈ nodes, i.u8_0 ≠ 0) →
    128 ≤ packetbufSize → ∀ before beacons,
      Run (BeaconNet.step nodes) anyStep BeaconNet.cold before beacons → ∀ trace net,
        Run (Net.step nodes packetbufSize) anyStep (Net.boot beacons) trace net →
        (∀ e ∈ trace, TreeRooted nodes e.1) → TreeRooted nodes net → ∀ i ∈ nodes, P i.u8_0 (net.table i)

/-! ### Nodes that move -/

/-- Nodes 2 and 3 climb to node 1, and node 4 to node 2. -/
def twoBranches : BeaconNet :=
  (BeaconNet.cold.broadcast ⟨1, 0⟩ [(⟨2, 0⟩, -10), (⟨3, 0⟩, -10)]).broadcast ⟨2, 0⟩ [(⟨4, 0⟩, -20)]

/-- Node 4 reports to node 2, then moves to node 3 and reports to it; both reports go on to node 1. -/
def movesOnce : List NetAction :=
  [.sendControl ⟨4, 0⟩,
    .receive ⟨⟨4, 0⟩, ⟨2, 0⟩, [uControl, ch '4', ch ':', ch ';', 0]⟩ true, .deliver ⟨2, 0⟩,
    .sendControl ⟨2, 0⟩,
    .receive ⟨⟨2, 0⟩, ⟨1, 0⟩, [uControl, ch '2', ch ':', ch '4', ch ';', 0]⟩ true, .deliver ⟨1, 0⟩,
    .radio (.beacon ⟨3, 0⟩ [(⟨4, 0⟩, -5)]),
    .sendControl ⟨4, 0⟩,
    .receive ⟨⟨4, 0⟩, ⟨3, 0⟩, [uControl, ch '4', ch ':', ch ';', 0]⟩ true, .deliver ⟨3, 0⟩,
    .sendControl ⟨3, 0⟩,
    .receive ⟨⟨3, 0⟩, ⟨1, 0⟩, [uControl, ch '3', ch ':', ch '4', ch ';', 0]⟩ true, .deliver ⟨1, 0⟩]

/-- Node 3 climbs to node 1, and node 2 to node 3. -/
def oneLine : BeaconNet :=
  (BeaconNet.cold.broadcast ⟨1, 0⟩ [(⟨3, 0⟩, -10)]).broadcast ⟨3, 0⟩ [(⟨2, 0⟩, -20)]

/-- Node 2 reports to node 3; then node 2 moves to node 1, node 3 to node 2, and node 3 reports to
    node 2. -/
def movesRound : List NetAction :=
  [.sendControl ⟨2, 0⟩,
    .receive ⟨⟨2, 0⟩, ⟨3, 0⟩, [uControl, ch '2', ch ':', ch ';', 0]⟩ true, .deliver ⟨3, 0⟩,
    .radio (.beacon ⟨1, 0⟩ [(⟨2, 0⟩, -5)]), .radio (.beacon ⟨2, 0⟩ [(⟨3, 0⟩, -1)]),
    .sendControl ⟨3, 0⟩,
    .receive ⟨⟨3, 0⟩, ⟨2, 0⟩, [uControl, ch '3', ch ':', ch '2', ch ';', 0]⟩ true, .deliver ⟨2, 0⟩]

/-- A live sender's beacon is heard by the nodes that can hear it. -/
theorem beacon_step {nodes : Finset LinkAddr} {net : BeaconNet} {sender : LinkAddr}
    {heard : List (LinkAddr × Int)} (able : net.Live nodes sender ∧ net.CanHear nodes sender heard) :
    net.step nodes (.beacon sender heard) = some (net.broadcast sender heard) := if_pos able

section
variable {nodes : Finset LinkAddr} {beacons : BeaconNet} {actions : List NetAction}
  {ranks : List (LinkAddr → Nat)}

/-- A run that keeps a tree at every instant and reaches a table without the property. -/
theorem not_treeRuns {P : UInt8 → RoutingTree → Prop} (distinct : DistinctIds nodes)
    (nonzero : ∀ i ∈ nodes, i.u8_0 ≠ 0) (root : ⟨1, 0⟩ ∈ nodes)
    {before : List (BeaconNet × BeaconAction)}
    (formed : Run (BeaconNet.step nodes) anyStep BeaconNet.cold before beacons)
    (trees : ∀ e ∈ history (Net.step nodes 128) (Net.boot beacons) actions,
      ∃ rank ∈ ranks, RankedParents nodes ⟨1, 0⟩ rank e.1)
    {i : LinkAddr} (member : i ∈ nodes) {tree : RoutingTree}
    (reached : ((execute (Net.step nodes 128) (Net.boot beacons) actions).map fun net =>
      (decide (∃ rank ∈ ranks, RankedParents nodes ⟨1, 0⟩ rank net), net.table i)) = some (true, tree))
    (lost : ¬ P i.u8_0 tree) : ¬ TreeRuns P := by
  intro holds
  obtain ⟨net, executed, view⟩ := Option.map_eq_some_iff.mp reached
  obtain ⟨last, table⟩ := Prod.mk.inj view
  have rooted : ∀ net, (∃ rank ∈ ranks, RankedParents nodes ⟨1, 0⟩ rank net) → TreeRooted nodes net :=
    fun _ ⟨_, _, ranked⟩ => ranked.treeRooted distinct root rfl
  have run := Run.of_execute anyStep (fun _ _ _ => trivial) executed
  exact lost (table ▸ holds nodes 128 distinct nonzero (Nat.le_refl _) before beacons formed _ net run
    (fun e taken => rooted e.1 (trees e taken)) (rooted net (of_decide_eq_true last)) i member)

end

/-- Neither half of the tree shape survives all runs: a table can list an id under two parents, and a
    table can list its own node. -/
theorem treeShape_lost : ¬ TreeRuns (fun _ tree => OneParent tree) ∧ ¬ TreeRuns OwnIdFree := by
  constructor
  · let nodes : Finset LinkAddr := {⟨1, 0⟩, ⟨2, 0⟩, ⟨3, 0⟩, ⟨4, 0⟩}
    let byId : LinkAddr → Nat := fun i => i.u8_0.toNat
    have formed : Run (BeaconNet.step nodes) anyStep BeaconNet.cold _ twoBranches :=
      (Run.nil.snoc trivial (beacon_step (by decide))).snoc trivial (beacon_step (by decide))
    have reached : ((execute (Net.step nodes 128) (Net.boot twoBranches) movesOnce).map fun net =>
        (decide (∃ rank ∈ [byId], RankedParents nodes ⟨1, 0⟩ rank net), net.table ⟨1, 0⟩)) =
        some (true, [⟨1, [2, 3]⟩, ⟨2, [4]⟩, ⟨3, [4]⟩]) := by
      decide +kernel
    exact not_treeRuns (by decide) (by decide) (by decide) formed (by decide +kernel) (by decide) reached
      (by decide)
  · let nodes : Finset LinkAddr := {⟨1, 0⟩, ⟨2, 0⟩, ⟨3, 0⟩}
    let byId : LinkAddr → Nat := fun i => i.u8_0.toNat
    let twoLast : LinkAddr → Nat := fun i => 2 * (i.u8_0.toNat - 1) % 3
    have formed : Run (BeaconNet.step nodes) anyStep BeaconNet.cold _ oneLine :=
      (Run.nil.snoc trivial (beacon_step (by decide))).snoc trivial (beacon_step (by decide))
    have reached : ((execute (Net.step nodes 128) (Net.boot oneLine) movesRound).map fun net =>
        (decide (∃ rank ∈ [byId, twoLast], RankedParents nodes ⟨1, 0⟩ rank net), net.table ⟨2, 0⟩)) =
        some (true, [⟨2, [3]⟩, ⟨3, [2]⟩]) := by
      decide +kernel
    exact not_treeRuns (by decide) (by decide) (by decide) formed (by decide +kernel) (by decide) reached
      (by decide)

/-! ### Where the shape is kept -/

variable {nodes : Finset LinkAddr}

/-- A child that a table lists in two entries is linked to two parents. -/
theorem Honest.linked_twice {link : LinkAddr → LinkAddr → Prop} {net : Net}
    (honest : Honest nodes link net) (distinct : DistinctIds nodes) {i : LinkAddr} {p q c : UInt8}
    (first : HasEdge (net.table i) p c) (second : HasEdge (net.table i) q c) (other : p ≠ q) :
    ∃ child parent parent', child.u8_0 = c ∧ parent ≠ parent' ∧ Linked nodes link child parent ∧
      Linked nodes link child parent' := by
  obtain ⟨parent, child, rfl, rfl, ⟨linked, -, -⟩⟩ := honest.edges i p c first
  obtain ⟨parent', child', rfl, same, ⟨linked', -, -⟩⟩ := honest.edges i q _ second
  cases distinct child' linked'.child_mem child linked.child_mem same
  exact ⟨child, parent, parent', rfl, fun equal => other (congrArg LinkAddr.u8_0 equal), linked, linked'⟩

/-- A node that its own table lists climbs the links back to itself. -/
theorem Honest.linked_round {link : LinkAddr → LinkAddr → Prop} {net : Net}
    (honest : Honest nodes link net) (distinct : DistinctIds nodes) {i : LinkAddr} (member : i ∈ nodes)
    {p : UInt8} (edge : HasEdge (net.table i) p i.u8_0) : Relation.TransGen (Linked nodes link) i i := by
  obtain ⟨parent, child, -, same, ⟨linked, below, -⟩⟩ := honest.edges i p _ edge
  cases distinct child linked.child_mem i member same
  exact .head' linked below

/-- In every run of honest nodes, however they move, an id is in the children lists of two entries of a
    table only if its node has sent control messages to two parents, and the own id is in a children list
    only if the links over which control messages were sent lead from the node back to itself. -/
theorem routingTable_shape (distinct : DistinctIds nodes) {packetbufSize : Nat}
    (big : 128 ≤ packetbufSize) {beacons : BeaconNet} {trace : List (Net × NetAction)} {net : Net}
    (run : Run (Net.step nodes packetbufSize) anyStep (Net.boot beacons) trace net) {i : LinkAddr}
    (member : i ∈ nodes) :
    ((net.table i).Pairwise fun node later => ∀ c ∈ node.children, c ∈ later.children →
      ∃ child parent parent', child.u8_0 = c ∧ parent ≠ parent' ∧
        SentTo packetbufSize trace child parent ∧ SentTo packetbufSize trace child parent') ∧
    ∀ node ∈ net.table i, i.u8_0 ∈ node.children →
      Relation.TransGen (SentTo packetbufSize trace) i i := by
  have honest := run_honest big (run_sendsOver run)
  constructor
  · have ids : (net.table i).Pairwise fun node later => node.id ≠ later.id :=
      List.pairwise_map.mp (honest.ok i).ids
    refine ids.imp_of_mem fun {node later} nodeMem laterMem other c listed listed' => ?_
    obtain ⟨child, parent, parent', own, two, linked, linked'⟩ := honest.linked_twice distinct
      ⟨node, nodeMem, rfl, listed⟩ ⟨later, laterMem, rfl, listed'⟩ other
    exact ⟨child, parent, parent', own, two, linked.link, linked'.link⟩
  · intro node nodeMem listed
    exact Relation.TransGen.mono (fun _ _ linked => linked.link) _ _
      (honest.linked_round distinct member ⟨node, nodeMem, rfl, listed⟩)

/-- Node 1 lists node 4 under two parents, so node 4 has sent control messages to two parents; and node 2
    lists itself below node 3, so such messages have gone from node 2 round to node 2. -/
theorem routingTable_shape_moves :
    (∃ trace net, Run (Net.step {⟨1, 0⟩, ⟨2, 0⟩, ⟨3, 0⟩, ⟨4, 0⟩} 128) anyStep (Net.boot twoBranches)
        trace net ∧ net.table ⟨1, 0⟩ = [⟨1, [2, 3]⟩, ⟨2, [4]⟩, ⟨3, [4]⟩] ∧
      ∃ child parent parent', child.u8_0 = 4 ∧ parent ≠ parent' ∧ SentTo 128 trace child parent ∧
        SentTo 128 trace child parent') ∧
    ∃ trace net, Run (Net.step {⟨1, 0⟩, ⟨2, 0⟩, ⟨3, 0⟩} 128) anyStep (Net.boot oneLine) trace net ∧
      net.table ⟨2, 0⟩ = [⟨2, [3]⟩, ⟨3, [2]⟩] ∧
      Relation.TransGen (SentTo 128 trace) ⟨2, 0⟩ ⟨2, 0⟩ := by
  constructor
  · have reached : ((execute (Net.step {⟨1, 0⟩, ⟨2, 0⟩, ⟨3, 0⟩, ⟨4, 0⟩} 128) (Net.boot twoBranches)
        movesOnce).map fun net => net.table ⟨1, 0⟩) = some [⟨1, [2, 3]⟩, ⟨2, [4]⟩, ⟨3, [4]⟩] := by
      decide +kernel
    obtain ⟨net, executed, table⟩ := Option.map_eq_some_iff.mp reached
    have run := Run.of_execute anyStep (fun _ _ _ => trivial) executed
    have shape := (routingTable_shape (by decide) (by decide) run (i := ⟨1, 0⟩) (by decide)).1
    rw [table] at shape
    simp only [List.pairwise_cons] at shape
    exact ⟨_, net, run, table, shape.2.1 ⟨3, [4]⟩ (by simp) 4 (by simp) (by simp)⟩
  · have reached : ((execute (Net.step {⟨1, 0⟩, ⟨2, 0⟩, ⟨3, 0⟩} 128) (Net.boot oneLine)
        movesRound).map fun net => net.table ⟨2, 0⟩) = some [⟨2, [3]⟩, ⟨3, [2]⟩] := by
      decide +kernel
    obtain ⟨net, executed, table⟩ := Option.map_eq_some_iff.mp reached
    have run := Run.of_execute anyStep (fun _ _ _ => trivial) executed
    have round := (routingTable_shape (by decide) (by decide) run (i := ⟨2, 0⟩) (by decide)).2
    exact ⟨_, net, run, table, round ⟨3, [2]⟩ (by simp [table]) (by decide)⟩

end TreeRssi
