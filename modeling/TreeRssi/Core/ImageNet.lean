/-
Module: TreeRssi.Core.ImageNet
Layer: Core
Purpose: The whole program on every node, each with its memory, and the packets in the air. The processes
  and callbacks of all nodes interleave; a timer fires for the block that it is in, and a reception finds
  the stack of its node in any state. A step of the program gives nothing at all if it would leave an array.
Imports: TreeRssi.Core.NodeImage, TreeRssi.Core.System
Trusted boundary: human-reviewed spec
Main exports: ImageNet, ImageAction, ImageNet.boot, ImageNet.step, ImageNet.next, ImageAction.view
Open obligations: none
-/
import TreeRssi.Core.NodeImage
import TreeRssi.Core.System

namespace TreeRssi

open CText

/-- The memory of every node, the nodes that have fallen silent, and the control and data packets in the
    air. -/
structure ImageNet where
  node : LinkAddr → NodeImage
  silent : List LinkAddr
  controlAir : List Frame
  air : List Frame

/-- The steps of the whole program. `posted` says whether the event queue had room, and `stack` what the
    local array of `recv_uc` held before. -/
inductive ImageAction where
  | beacon (sender : LinkAddr) (heard : List (LinkAddr × Int))
  | expire (node : LinkAddr) (p : ParentPtr)
  | silence (node : LinkAddr)
  | sendControl (node : LinkAddr)
  | receiveControl (frame : Frame) (stack : Memory) (posted : Bool)
  | loseControl (frame : Frame)
  | update (node : LinkAddr)
  | generate (node : LinkAddr) (posted : Bool)
  | receive (frame : Frame) (stack : Memory) (posted : Bool)
  | lose (frame : Frame)
  | route (node : LinkAddr) (fuel : Nat)

namespace ImageNet

/-- Every node just after boot. -/
def boot : ImageNet where
  node := .boot
  silent := []
  controlAir := []
  air := []

/-- The neighbour lists of the nodes. -/
def beacons (s : ImageNet) : BeaconNet where
  parents := fun node => (s.node node).neighbours.view
  silent := s.silent

/-- Replace the memory of one node. -/
def setNode (s : ImageNet) (node : LinkAddr) (image : NodeImage) : ImageNet :=
  { s with node := fun other => if other = node then image else s.node other }

@[simp] theorem setNode_self (s : ImageNet) (node : LinkAddr) (image : NodeImage) :
    (s.setNode node image).node node = image := if_pos rfl

theorem setNode_other {s : ImageNet} {node other : LinkAddr} {image : NodeImage} (away : other ≠ node) :
    (s.setNode node image).node other = s.node other := if_neg away

/-- Every receiver of the beacon runs `register_parent`. -/
def broadcast (s : ImageNet) (sender : LinkAddr) (heard : List (LinkAddr × Int)) : ImageNet :=
  { s with
    node := fun node =>
      match heard.lookup node with
      | some rssi =>
          { s.node node with
            neighbours := (s.node node).neighbours.registerParent node sender
              (broadcastRssi sender (s.node sender).neighbours.view) rssi }
      | none => s.node node }

/-- The keepalive timer in the block `p` of a node fires. -/
def expire (s : ImageNet) (node : LinkAddr) (p : ParentPtr) : ImageNet :=
  s.setNode node { s.node node with
    neighbours := ((s.node node).neighbours.disarm p).keepaliveExpired p }

/-- `recv_uc` at the receiver of a packet. -/
def received (s : ImageNet) (frame : Frame) (stack : Memory) (posted : Bool) : Option ImageNet :=
  ((s.node frame.dst).recvUc frame.dst frame.src frame.data stack posted).map (s.setNode frame.dst)

/-- One step of the whole program; `some none` when the step cannot occur, and `none` when it leaves an
    array. -/
def step (nodes : Finset LinkAddr) (packetbufSize : Nat) (s : ImageNet) :
    ImageAction → Option (Option ImageNet)
  | .beacon sender heard =>
      if s.beacons.Live nodes sender ∧ s.beacons.CanHear nodes sender heard then
        some (some (s.broadcast sender heard))
      else some none
  | .expire node p =>
      if s.beacons.Live nodes node ∧ (s.node node).neighbours.keepalive p then
        some (some (s.expire node p))
      else some none
  | .silence node =>
      if s.beacons.Live nodes node then some (some { s with silent := node :: s.silent }) else some none
  | .sendControl node =>
      if s.beacons.Live nodes node then
        ((s.node node).sendRoutingTable packetbufSize node).map fun sent =>
          some { s.setNode node sent.1 with controlAir := sent.2.toList ++ s.controlAir }
      else some none
  | .receiveControl frame stack posted =>
      if frame ∈ s.controlAir ∧ s.beacons.Live nodes frame.dst then
        (s.received frame stack posted).map fun t =>
          some { t with controlAir := s.controlAir.erase frame }
      else some none
  | .loseControl frame =>
      if frame ∈ s.controlAir then some (some { s with controlAir := s.controlAir.erase frame })
      else some none
  | .update node =>
      if s.beacons.Live nodes node then
        ((s.node node).updateRoutingTable node).map fun updated => updated.map (s.setNode node)
      else some none
  | .generate node posted =>
      if s.beacons.Live nodes node then
        ((s.node node).generatePktDst node posted).map fun image => some (s.setNode node image)
      else some none
  | .receive frame stack posted =>
      if frame ∈ s.air ∧ s.beacons.Live nodes frame.dst then
        (s.received frame stack posted).map fun t => some { t with air := s.air.erase frame }
      else some none
  | .lose frame =>
      if frame ∈ s.air then some (some { s with air := s.air.erase frame }) else some none
  | .route node fuel =>
      if s.beacons.Live nodes node then
        ((s.node node).routingUpstreamDownstream packetbufSize node fuel).map fun routed =>
          routed.map fun done => { s.setNode node done.1 with air := done.2 ++ s.air }
      else some none

/-- One step that occurs and stays inside every array. -/
def next (nodes : Finset LinkAddr) (packetbufSize : Nat) (s : ImageNet) (action : ImageAction) :
    Option ImageNet := (s.step nodes packetbufSize action).join

end ImageNet

/-- The same step for the lists. -/
def ImageAction.view (s : ImageNet) : ImageAction → SystemAction
  | .beacon sender heard => .net (.radio (.beacon sender heard))
  | .expire node p => .net (.radio (.expire node ((s.node node).neighbours.block p).id))
  | .silence node => .net (.radio (.silence node))
  | .sendControl node => .net (.sendControl node)
  | .receiveControl frame _ posted => .net (.receive frame posted)
  | .loseControl frame => .net (.lose frame)
  | .update node => .net (.deliver node)
  | .generate node posted => .generate node posted
  | .receive frame _ posted => .receive frame posted
  | .lose frame => .lose frame
  | .route node fuel => .route node fuel

end TreeRssi
