/-
Module: TreeRssi.Core.System
Layer: Core
Purpose: The whole program on every node: the neighbour and control planes of the network, the data plane
  of each node, and the data packets in the air. All processes of all nodes interleave. `recv_uc` runs
  whole for every packet, and `routing_upstream_downstream` reads the table and the parent that its node
  has when the event is delivered. The air loses and reorders packets, but makes none. A log records the
  packets that obtained a block where they were generated, and those that were lost on the air or found no
  block.
Imports: TreeRssi.Core.Network, TreeRssi.Core.PacketNode
Trusted boundary: human-reviewed spec
Main exports: SystemLog, System, SystemAction, System.boot, frameToken, fresh, System.step
Open obligations: none
-/
import TreeRssi.Core.Network
import TreeRssi.Core.PacketNode

namespace TreeRssi

open CText

/-- Packets with the node where they were generated, and with the node that they did not reach. -/
structure SystemLog where
  born : List (LinkAddr × PktEntry)
  lost : List (LinkAddr × PktEntry)

/-- The state of the whole program. The control packets in the air are those of `net`. -/
structure System where
  net : Net
  data : LinkAddr → PacketNode
  air : List Frame
  log : SystemLog

/-- The steps of the whole program: a step of the neighbour or the control plane, a turn of
    `generate_pkt_dst`, the reception or the loss of a data packet, and the delivery of an `ev_route_pkt`
    event. `posted` says whether the event queue had room. -/
inductive SystemAction where
  | net (action : NetAction)
  | generate (node : LinkAddr) (posted : Bool)
  | receive (frame : Frame) (posted : Bool)
  | lose (frame : Frame)
  | route (node : LinkAddr) (fuel : Nat)

/-- What has been put in front of a list. -/
def fresh {α : Type} (old new : List α) : List α := new.take (new.length - old.length)

@[simp] theorem fresh_append {α : Type} (front old : List α) : fresh old (front ++ old) = front := by
  simp [fresh]

@[simp] theorem fresh_self {α : Type} (l : List α) : fresh l l = [] := by simp [fresh]

/-- The entry that a data packet carries, with the node that it is for. -/
def frameToken (frame : Frame) : Option (LinkAddr × PktEntry) :=
  match recvUc frame.data with
  | .data msg => some (frame.dst, packetEntry frame.src (cstr msg))
  | _ => none

/-- `process_post`: without room in the event queue nothing is posted. -/
def PacketNode.post (posted : Bool) (before after : PacketNode) : PacketNode :=
  if posted then after else { after with pending := before.pending }

namespace System

/-- Every node just after boot. -/
def boot : System where
  net := Net.boot BeaconNet.cold
  data := fun _ => PacketNode.boot
  air := []
  log := { born := [], lost := [] }

/-- Replace the data plane of one node. -/
def setData (s : System) (node : LinkAddr) (p : PacketNode) : System :=
  { s with data := fun other => if other = node then p else s.data other }

@[simp] theorem setData_self (s : System) (node : LinkAddr) (p : PacketNode) :
    (s.setData node p).data node = p := if_pos rfl

theorem setData_other {s : System} {node other : LinkAddr} {p : PacketNode} (away : other ≠ node) :
    (s.setData node p).data other = s.data other := if_neg away

/-- The data branch of `recv_uc` at the receiver of a packet. -/
def received (s : System) (frame : Frame) (posted : Bool) : PacketNode :=
  (s.data frame.dst).post posted ((s.data frame.dst).receive frame.dst frame.src frame.data)

/-- The data plane of a node after a turn of `generate_pkt_dst`. -/
def generated (s : System) (node : LinkAddr) (posted : Bool) : PacketNode :=
  (s.data node).post posted ((s.data node).generatePktDst node)

/-- The packets that have obtained a block at a node since. -/
def queuedSince (s : System) (node : LinkAddr) (p : PacketNode) : List (LinkAddr × PktEntry) :=
  (fresh (s.data node).log.obtained p.log.obtained).map fun packet => (node, packet.entry)

/-- One step of the whole program; `none` when the step cannot occur. -/
def step (nodes : Finset LinkAddr) (packetbufSize : Nat) (s : System) : SystemAction → Option System
  | .net action =>
      (s.net.step nodes packetbufSize action).map fun net =>
        match action with
        | .receive frame posted => { s.setData frame.dst (s.received frame posted) with net := net }
        | _ => { s with net := net }
  | .generate node posted =>
      if s.net.beacons.Live nodes node then
        let p := s.generated node posted
        some { s.setData node p with
          log := { s.log with born := s.queuedSince node p ++ s.log.born } }
      else none
  | .receive frame posted =>
      if frame ∈ s.air ∧ s.net.beacons.Live nodes frame.dst then
        let p := s.received frame posted
        let refused := if s.queuedSince frame.dst p = [] then (frameToken frame).toList else []
        some { s.setData frame.dst p with
          net := s.net.setControl frame.dst ((s.net.control frame.dst).receive frame.data posted)
          air := s.air.erase frame
          log := { s.log with lost := refused ++ s.log.lost } }
      else none
  | .lose frame =>
      if frame ∈ s.air then
        some { s with
          air := s.air.erase frame
          log := { s.log with lost := (frameToken frame).toList ++ s.log.lost } }
      else none
  | .route node fuel =>
      if s.net.beacons.Live nodes node then
        ((s.data node).routingUpstreamDownstream packetbufSize node fuel (s.net.table node)
          (s.net.best node)).map fun p =>
            { s.setData node p with air := fresh (s.data node).log.sent p.log.sent ++ s.air }
      else none

end System

end TreeRssi
