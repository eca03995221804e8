/-
Module: TreeRssi.Proofs.LoopFreedom
Layer: Proofs
Purpose: Loops of best parents. Nothing in the protocol excludes them: a node whose parent expires, or
  is heard worse than before, may elect a node that climbs through it. They are excluded in the runs in
  which no step worsens the route a node already has: then every stored sum is below what its neighbour
  announces now, so announced sums strictly grow along best parents.
Imports: TreeRssi.Proofs.BeaconSteps, TreeRssi.Lib.BestPath
Trusted boundary: none
Main exports: BeaconOrExpiry, LoopFree, bestParent_loop, KeepsRoute, bestParent_loopFree
Open obligations: none
-/
import TreeRssi.Lib.BestPath
import TreeRssi.Proofs.BeaconSteps

namespace TreeRssi

open LabelledRun BestPath

/-- Beacons heard with negative RSSIs, and keepalive expiries. -/
def BeaconOrExpiry (_ : BeaconNet) : BeaconAction → Prop
  | .beacon _ heard => ∀ e ∈ heard, e.2 < 0
  | .expire _ _ => True
  | .silence _ => False

/-- Following best parents returns to no node, in every state that steps of the kind `ok` reach. -/
def LoopFree (ok : BeaconNet → BeaconAction → Prop) : Prop :=
  ∀ nodes : Finset LinkAddr, DistinctIds nodes → ∀ trace net,
    Run (BeaconNet.step nodes) ok BeaconNet.cold trace net → ∀ i, ¬ Relation.TransGen net.ParentOf i i

/-! ### Two ways to close a loop -/

/-- Nodes 1, 2 and 3 in a line: 3 climbs through 2, and 2 hears 3 as well. -/
def threeInLine : List BeaconAction :=
  [.beacon ⟨1, 0⟩ [(⟨2, 0⟩, -10)], .beacon ⟨2, 0⟩ [(⟨3, 0⟩, -10)], .beacon ⟨3, 0⟩ [(⟨2, 0⟩, -10)]]

/-- The entry of node 1 expires at 2, and the next beacon of 3 makes it the parent of 2. -/
def expiryLoop : List BeaconAction :=
  threeInLine ++ [.expire ⟨2, 0⟩ ⟨1, 0⟩, .beacon ⟨3, 0⟩ [(⟨2, 0⟩, -10)]]

/-- Node 2 hears node 1 worse than before, and elects node 3. -/
def weakerLoop : List BeaconAction :=
  threeInLine ++ [.beacon ⟨1, 0⟩ [(⟨2, 0⟩, -100)]]

/-- Best parents can form a loop: after an expiry over links that never change, and after a weaker
    beacon without any expiry. -/
theorem bestParent_loop :
    ¬ LoopFree BeaconOrExpiry ∧
    ¬ LoopFree (fun net action => BeaconOrExpiry net action ∧
      ∀ sender heard, action = .beacon sender heard → ∀ e ∈ heard, e.2 = -10) ∧
    ¬ LoopFree (fun net action => BeaconOrExpiry net action ∧
      ∀ node neighbour, action ≠ .expire node neighbour) := by
  let nodes : Finset LinkAddr := {⟨1, 0⟩, ⟨2, 0⟩, ⟨3, 0⟩}
  -- Any kind of steps that allows one of the two runs allows a loop.
  have loops : ∀ steps ok, ((execute (BeaconNet.step nodes) BeaconNet.cold steps).map fun net =>
      decide (net.ParentOf ⟨2, 0⟩ ⟨3, 0⟩ ∧ net.ParentOf ⟨3, 0⟩ ⟨2, 0⟩)) = some true →
      (∀ net, ∀ action ∈ steps, ok net action) → ¬ LoopFree ok := by
    intro steps ok looped allowed loopFree
    obtain ⟨net, executed, loop⟩ := Option.map_eq_some_iff.mp looped
    obtain ⟨down, up⟩ := of_decide_eq_true loop
    exact loopFree nodes (by decide) _ net (Run.of_execute ok allowed executed) ⟨2, 0⟩
      (.tail (.single down) up)
  refine ⟨loops expiryLoop _ (by decide) ?_, loops expiryLoop _ (by decide) ?_,
    loops weakerLoop _ (by decide) ?_⟩
  · simp [expiryLoop, threeInLine, BeaconOrExpiry]
  · simp [expiryLoop, threeInLine, BeaconOrExpiry]
  · simp [weakerLoop, threeInLine, BeaconOrExpiry]

/-! ### Runs that keep the routes -/

/-- Steps that do not worsen the route a node has: the entry that expires is not the best parent's,
    and a beacon heard from the best parent gives a sum no lower than `my_path_rssi`. -/
def KeepsRoute (net : BeaconNet) : BeaconAction → Prop
  | .beacon sender heard => ∀ e ∈ heard, e.2 < 0 ∧
      ((net.parents e.1).bestParentId = sender →
        (net.parents e.1).myPathRssi ≤ net.announced sender + e.2)
  | .expire node neighbour => (net.parents node).bestParentId ≠ neighbour
  | .silence _ => False

/-- What every run that keeps the routes maintains: each stored sum is below what its neighbour
    announces now, and each node's own sum is the one stored for its parent. -/
structure RoutesKept (net : BeaconNet) : Prop where
  nodup : ∀ i, IdsNodup (net.parents i).preferredParentList
  stale : ∀ i, ∀ q ∈ (net.parents i).preferredParentList, q.rssiP < net.announced q.id
  chosen : ∀ i : LinkAddr, i.u8_0 ≠ 1 → Chosen (net.parents i)
  root : ∀ i : LinkAddr, i.u8_0 = 1 → (net.parents i).bestParentId = linkaddrNull

theorem RoutesKept.cold : RoutesKept BeaconNet.cold where
  nodup _ := List.nodup_nil
  stale _ := by simp [BeaconNet.cold, selectPreferedParent]
  chosen _ notRoot := .inl ⟨rfl, if_neg notRoot⟩
  root _ _ := rfl

/-- What a node announces lies between -1000 and 0. -/
theorem announced_range {net : BeaconNet} {i : LinkAddr}
    (listed : i.u8_0 ≠ 1 → Listed (net.parents i)) : noPath ≤ net.announced i ∧ net.announced i ≤ 0 := by
  by_cases isRoot : i.u8_0 = 1
  · rw [BeaconNet.announced_root isRoot]
    decide
  · rw [BeaconNet.announced_of_not_root isRoot]
    exact (listed isRoot).range.imp_right Int.le_of_lt

/-- The sum that a receiver stores does not wrap. -/
theorem stored_sum {net : BeaconNet} {sender : LinkAddr} {rssi : Int}
    (listed : sender.u8_0 ≠ 1 → Listed (net.parents sender)) (low : -128 ≤ rssi) (high : rssi < 0) :
    int16 ((broadcastRssi sender (net.parents sender)).rssiP + rssi) = net.announced sender + rssi := by
  have range := announced_range listed
  simp only [noPath] at range
  exact int16_of_range (by unfold BeaconNet.announced at range; omega)
    (by unfold BeaconNet.announced at range; omega)

/-- One step: the node's own sum does not fall, its parent stays its parent's entry, and new entries
    are below what their senders announce. -/
theorem RoutesKept.node {nodes : Finset LinkAddr} {net net' : BeaconNet} {action : BeaconAction}
    (kept : RoutesKept net) (allowed : KeepsRoute net action)
    (stepped : BeaconNet.step nodes net action = some net') (i : LinkAddr) :
    (i.u8_0 ≠ 1 → Chosen (net'.parents i) ∧
      (net.parents i).myPathRssi ≤ (net'.parents i).myPathRssi) ∧
    (i.u8_0 = 1 → (net'.parents i).bestParentId = linkaddrNull) ∧
    ∀ q ∈ (net'.parents i).preferredParentList, q.rssiP < net.announced q.id := by
  have nodup := kept.nodup i
  generalize after : net'.parents i = state
  have atNode := step_node stepped i
  rw [after] at atNode
  cases atNode with
  | idle => exact ⟨fun notRoot => ⟨kept.chosen i notRoot, Int.le_refl _⟩, kept.root i, kept.stale i⟩
  | @heard sender heard rssi member canHear _ =>
      obtain ⟨negative, noWorse⟩ := allowed _ member
      have low := (canHear _ member).2.2.1
      have sum := stored_sum (fun h => (kept.chosen sender h).listed) low negative
      have range := announced_range (fun h => (kept.chosen sender h).listed)
      have outcome := registerParent_cases i (net.parents i) sender
        (broadcastRssi sender (net.parents sender)) rssi
      rw [sum] at outcome
      refine ⟨fun notRoot => ?_, fun isRoot => ?_, fun q listed => ?_⟩
      · exact outcome.chosen nodup notRoot (kept.chosen i notRoot) (by omega) (fun _ => noWorse)
      · rw [outcome.atRoot isRoot, kept.root i isRoot]
      · rcases outcome.mem nodup listed with rfl | old
        · change net.announced sender + rssi < net.announced sender
          omega
        · exact kept.stale i q old
  | @expired p listed =>
      have other : (net.parents i).bestParentId ≠ p.id := allowed
      have same := keepaliveExpired_other other
      refine ⟨fun notRoot => ⟨?_, by rw [same.2]⟩, fun isRoot => by rw [same.1, kept.root i isRoot],
        fun q member => kept.stale i q ((mem_keepaliveExpired nodup listed).mp member).1⟩
      exact keepaliveExpired_chosen nodup listed other (kept.chosen i notRoot)

/-- A step that keeps the routes lowers no announced sum. -/
theorem RoutesKept.announced_mono {nodes : Finset LinkAddr} {net net' : BeaconNet}
    {action : BeaconAction} (kept : RoutesKept net) (allowed : KeepsRoute net action)
    (stepped : BeaconNet.step nodes net action = some net') (i : LinkAddr) :
    net.announced i ≤ net'.announced i := by
  by_cases isRoot : i.u8_0 = 1
  · rw [BeaconNet.announced_root isRoot, BeaconNet.announced_root isRoot]
  · rw [BeaconNet.announced_of_not_root isRoot, BeaconNet.announced_of_not_root isRoot]
    exact ((kept.node allowed stepped i).1 isRoot).2

theorem RoutesKept.step {nodes : Finset LinkAddr} {net net' : BeaconNet} {action : BeaconAction}
    (kept : RoutesKept net) (allowed : KeepsRoute net action)
    (stepped : BeaconNet.step nodes net action = some net') : RoutesKept net' where
  nodup i := (step_node stepped i).nodup (kept.nodup i)
  stale i q member := Int.lt_of_lt_of_le ((kept.node allowed stepped i).2.2 q member)
    (kept.announced_mono allowed stepped q.id)
  chosen i notRoot := ((kept.node allowed stepped i).1 notRoot).1
  root i isRoot := (kept.node allowed stepped i).2.1 isRoot

/-- Announced sums strictly grow from a node to its best parent. -/
theorem RoutesKept.ascending {net : BeaconNet} (kept : RoutesKept net) {i p : LinkAddr}
    (parent : net.ParentOf i p) : net.announced i < net.announced p := by
  obtain ⟨best, notNull⟩ := parent
  have notRoot : i.u8_0 ≠ 1 := fun isRoot => notNull (best.symm.trans (kept.root i isRoot))
  rw [BeaconNet.announced_of_not_root notRoot]
  rcases kept.chosen i notRoot with ⟨none, -⟩ | ⟨-, q, member, same, value⟩
  · exact absurd (best.symm.trans none) notNull
  · have below := kept.stale i q member
    rwa [value, same, best] at below

/-- In a run whose steps keep the routes, following best parents never returns to a node. -/
theorem bestParent_loopFree {nodes : Finset LinkAddr} {trace : List (BeaconNet × BeaconAction)}
    {net : BeaconNet} (run : Run (BeaconNet.step nodes) KeepsRoute BeaconNet.cold trace net)
    (i : LinkAddr) : ¬ Relation.TransGen net.ParentOf i i := by
  have kept : RoutesKept net := run.invariant .cold fun _ _ _ kept allowed stepped =>
    kept.step allowed stepped
  exact acyclic_of_ascending (fun parent => kept.ascending parent) i

/-- Node 3 climbs through node 2 to node 1, and no loop appears. -/
theorem bestParent_loopFree_line :
    ∃ trace net, Run (BeaconNet.step {⟨1, 0⟩, ⟨2, 0⟩, ⟨3, 0⟩}) KeepsRoute BeaconNet.cold trace net ∧
      net.ParentOf ⟨3, 0⟩ ⟨2, 0⟩ ∧ ¬ Relation.TransGen net.ParentOf ⟨3, 0⟩ ⟨3, 0⟩ := by
  have start : Run (BeaconNet.step {⟨1, 0⟩, ⟨2, 0⟩, ⟨3, 0⟩}) KeepsRoute BeaconNet.cold []
      BeaconNet.cold := .nil
  have first := start.snoc (l := .beacon ⟨1, 0⟩ [(⟨2, 0⟩, -10)]) (by simp [KeepsRoute]; decide) rfl
  have second := first.snoc (l := .beacon ⟨2, 0⟩ [(⟨3, 0⟩, -10)]) (by simp [KeepsRoute]; decide) rfl
  exact ⟨_, _, second, by decide, bestParent_loopFree second _⟩

end TreeRssi
