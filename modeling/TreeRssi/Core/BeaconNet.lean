/-
Module: TreeRssi.Core.BeaconNet
Layer: Core
Purpose: The neighbour plane of a whole network. A step is a beacon broadcast by one node and heard,
  each with its own RSSI, by any of the others; the expiry of one neighbour entry at one node; or a
  node falling silent for good. The step function is executable and refuses a step that cannot occur.
Imports: TreeRssi.Core.Neighbours, TreeRssi.Lib.Run, Mathlib (finite sets)
Trusted boundary: human-reviewed spec
Main exports: DistinctIds, BeaconNet, BeaconAction, BeaconNet.cold, BeaconNet.step, BeaconNet.ParentOf,
  Links
Open obligations: none
-/
import Mathlib.Data.Finset.Card
import TreeRssi.Core.Neighbours
import TreeRssi.Lib.Run

namespace TreeRssi

/-- The neighbour plane of every node, and the nodes that have fallen silent. -/
structure BeaconNet where
  parents : LinkAddr → ParentState
  silent : List LinkAddr

/-- The steps of the neighbour plane. `heard` lists the receivers of a beacon with the RSSI each of
    them measured. -/
inductive BeaconAction where
  | beacon (sender : LinkAddr) (heard : List (LinkAddr × Int))
  | expire (node neighbour : LinkAddr)
  | silence (node : LinkAddr)
deriving DecidableEq, Repr

/-- The network's assumption on addresses: no two nodes share their first byte. -/
def DistinctIds (nodes : Finset LinkAddr) : Prop :=
  ∀ a ∈ nodes, ∀ b ∈ nodes, a.u8_0 = b.u8_0 → a = b

instance (nodes : Finset LinkAddr) : Decidable (DistinctIds nodes) :=
  inferInstanceAs (Decidable (∀ a ∈ nodes, ∀ b ∈ nodes, _ → _))

namespace BeaconNet

/-- Every node just after boot. -/
def cold : BeaconNet where
  parents := selectPreferedParent
  silent := []

/-- A node of the network that still runs. -/
def Live (nodes : Finset LinkAddr) (net : BeaconNet) (node : LinkAddr) : Prop :=
  node ∈ nodes ∧ node ∉ net.silent

instance (nodes : Finset LinkAddr) (net : BeaconNet) (node : LinkAddr) :
    Decidable (net.Live nodes node) := inferInstanceAs (Decidable (_ ∧ _))

/-- The receivers of a beacon are live nodes other than the sender, and an RSSI is an `int8_t`. -/
def CanHear (nodes : Finset LinkAddr) (net : BeaconNet) (sender : LinkAddr)
    (heard : List (LinkAddr × Int)) : Prop :=
  ∀ e ∈ heard, net.Live nodes e.1 ∧ e.1 ≠ sender ∧ -128 ≤ e.2 ∧ e.2 ≤ 127

instance (nodes : Finset LinkAddr) (net : BeaconNet) (sender : LinkAddr)
    (heard : List (LinkAddr × Int)) : Decidable (net.CanHear nodes sender heard) :=
  inferInstanceAs (Decidable (∀ e ∈ heard, _))

/-- Every receiver of the beacon runs `register_parent`; the other nodes do nothing. -/
def broadcast (net : BeaconNet) (sender : LinkAddr) (heard : List (LinkAddr × Int)) : BeaconNet :=
  { net with
    parents := fun node =>
      match heard.lookup node with
      | some rssi =>
          registerParent node (net.parents node) sender
            (broadcastRssi sender (net.parents sender)) rssi
      | none => net.parents node }

/-- Replace the neighbour state of one node. -/
def setParents (net : BeaconNet) (node : LinkAddr) (state : ParentState) : BeaconNet :=
  { net with parents := fun other => if other = node then state else net.parents other }

/-- One step of the neighbour plane; `none` when the step cannot occur. -/
def step (nodes : Finset LinkAddr) (net : BeaconNet) : BeaconAction → Option BeaconNet
  | .beacon sender heard =>
      if net.Live nodes sender ∧ net.CanHear nodes sender heard then some (net.broadcast sender heard)
      else none
  | .expire node neighbour =>
      if net.Live nodes node then
        ((net.parents node).preferredParentList.find? (·.id = neighbour)).map fun p =>
          net.setParents node (keepaliveExpired (net.parents node) p)
      else none
  | .silence node =>
      if net.Live nodes node then some { net with silent := node :: net.silent } else none

/-- `best_parent_id` of `child` is `parent`, and is not null. -/
def ParentOf (net : BeaconNet) (child parent : LinkAddr) : Prop :=
  (net.parents child).bestParentId = parent ∧ parent ≠ linkaddrNull

instance (net : BeaconNet) (child parent : LinkAddr) : Decidable (net.ParentOf child parent) :=
  inferInstanceAs (Decidable (_ ∧ _))

/-- The state of node `j` after it hears the current beacon of `i` with the RSSI `x`. -/
def hear (net : BeaconNet) (i j : LinkAddr) (x : Int) : ParentState :=
  registerParent j (net.parents j) i (broadcastRssi i (net.parents i)) x

/-- The sum that a node announces: 0 for the root, its `my_path_rssi` otherwise. -/
def announced (net : BeaconNet) (node : LinkAddr) : Int :=
  (broadcastRssi node (net.parents node)).rssiP

theorem announced_root {net : BeaconNet} {node : LinkAddr} (isRoot : node.u8_0 = 1) :
    net.announced node = 0 := by
  simp [announced, broadcastRssi, isRoot, llenarBeacon]

theorem announced_of_not_root {net : BeaconNet} {node : LinkAddr} (notRoot : node.u8_0 ≠ 1) :
    net.announced node = (net.parents node).myPathRssi := by
  simp [announced, broadcastRssi, notRoot, llenarBeacon]

end BeaconNet

/-- The radio links of a network: `rssi i j` is the RSSI with which `j` hears `i`, if it does. Every
    link is between two different nodes and its RSSI is a negative `int8_t`. -/
structure Links (nodes : Finset LinkAddr) where
  rssi : LinkAddr → LinkAddr → Option Int
  range : ∀ {i j x}, rssi i j = some x → -128 ≤ x ∧ x ≤ -1
  ends : ∀ {i j x}, rssi i j = some x → i ∈ nodes ∧ j ∈ nodes ∧ i ≠ j

namespace Links

variable {nodes : Finset LinkAddr} (links : Links nodes)

/-- No node hears more neighbours than `preferred_parent_mem` has blocks. -/
def FewNeighbours : Prop :=
  ∀ j, ∃ heard : Finset LinkAddr, heard.card ≤ preferredParentMem ∧
    ∀ i x, links.rssi i j = some x → i ∈ heard

end Links

end TreeRssi
