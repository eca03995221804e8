/-
Module: TreeRssi.Core.Network
Layer: Core
Purpose: The whole network: the neighbour plane, the control plane of every node and the control packets
  in the air. A packet is received whole by its destination or lost, and an event is delivered at some
  later time, so steps of all kinds interleave freely.
Imports: TreeRssi.Core.BeaconNet, TreeRssi.Core.Control
Trusted boundary: human-reviewed spec
Main exports: Net, NetAction, Net.boot, Net.step, Net.best, Net.table, SentTo
Open obligations: none
-/
import TreeRssi.Core.BeaconNet
import TreeRssi.Core.Control

namespace TreeRssi

/-- The state of the network. -/
structure Net where
  beacons : BeaconNet
  control : LinkAddr → ControlState
  air : List Frame

/-- The steps of the network. -/
inductive NetAction where
  | radio (action : BeaconAction)
  | sendControl (node : LinkAddr)
  | receive (frame : Frame) (posted : Bool)
  | lose (frame : Frame)
  | deliver (node : LinkAddr)
deriving DecidableEq, Repr

namespace Net

/-- Every control plane just after boot, nothing in the air, over a given neighbour plane. -/
def boot (beacons : BeaconNet) : Net where
  beacons := beacons
  control := ControlState.boot
  air := []

/-- `best_parent_id` of a node. -/
def best (net : Net) (node : LinkAddr) : LinkAddr := (net.beacons.parents node).bestParentId

/-- `routing_tree` of a node. -/
def table (net : Net) (node : LinkAddr) : RoutingTree := (net.control node).routingTree

/-- Replace the control plane of one node. -/
def setControl (net : Net) (node : LinkAddr) (s : ControlState) : Net :=
  { net with control := fun other => if other = node then s else net.control other }

@[simp] theorem setControl_self (net : Net) (node : LinkAddr) (s : ControlState) :
    (net.setControl node s).control node = s := if_pos rfl

theorem setControl_other {net : Net} {node other : LinkAddr} {s : ControlState} (away : other ≠ node) :
    (net.setControl node s).control other = net.control other := if_neg away

/-- One turn of `send_routing_table` at a node. -/
def sendControl (packetbufSize : Nat) (net : Net) (node : LinkAddr) : ControlState × Option Frame :=
  sendRoutingTable packetbufSize node (net.best node) (net.control node)

/-- One step of the network; `none` when the step cannot occur. -/
def step (nodes : Finset LinkAddr) (packetbufSize : Nat) (net : Net) : NetAction → Option Net
  | .radio action => (net.beacons.step nodes action).map fun beacons => { net with beacons := beacons }
  | .sendControl node =>
      if net.beacons.Live nodes node then
        let (s, packet) := net.sendControl packetbufSize node
        some { net.setControl node s with air := packet.toList ++ net.air }
      else none
  | .receive frame posted =>
      if frame ∈ net.air ∧ net.beacons.Live nodes frame.dst then
        some { net.setControl frame.dst ((net.control frame.dst).receive frame.data posted) with
          air := net.air.erase frame }
      else none
  | .lose frame => if frame ∈ net.air then some { net with air := net.air.erase frame } else none
  | .deliver node =>
      if net.beacons.Live nodes node then
        ((net.control node).deliver node).map fun s => net.setControl node s
      else none

end Net

/-- In the history `child` once sent a control message to `parent`, its best parent then. -/
def SentTo (packetbufSize : Nat) (trace : List (Net × NetAction)) (child parent : LinkAddr) : Prop :=
  ∃ pre frame, (pre, .sendControl child) ∈ trace ∧ (pre.sendControl packetbufSize child).2 = some frame ∧
    pre.best child = parent ∧ parent ≠ linkaddrNull

end TreeRssi
