/-
Module: TreeRssi.Core.NodeImage
Layer: Core
Purpose: All static data of one node of `Lab3/tree_rssi_remote.c` as the memory it is: the blocks, lists and
  timers of the neighbours, the arrays of the receive path, the two buffers of `send_routing_table`, and the
  blocks of `pkt_mem` with their `msg` arrays. Each process of the program is a function on this memory.
  Every access to an array names its size, so that `none` means an access outside an array or past the
  terminator of a string. Where a search may not end, a second `none` inside means that the calls it was
  given are used up.
Imports: TreeRssi.Core.SendPath, TreeRssi.Core.PacketNode, TreeRssi.Core.NeighbourTable
Trusted boundary: human-reviewed spec
Main exports: findInSubtreeAt, searchForwarderAt, routeHopAt, sendPacketAt, PacketMemory,
  PacketMemory.generatePktDst, PacketMemory.routeAll, NodeImage, NodeImage.boot, NodeImage.recvUc,
  NodeImage.updateRoutingTable, NodeImage.sendRoutingTable, NodeImage.routingUpstreamDownstream
Open obligations: none
-/
import TreeRssi.Core.SendPath
import TreeRssi.Core.PacketNode
import TreeRssi.Core.NeighbourTable

namespace TreeRssi

open CText Bounds BlockPool

/-! ### Search_forwarder -/

/-- The loop over `children` from the child `j` on, with a call for each: the first child whose call says
    that the destination is there. -/
def askChildrenAt (ask : UInt8 → Option (Option Bool)) (children : Nat → UInt8) :
    Nat → Nat → Option (Option (Option UInt8))
  | 0, _ => some (some none)
  | turns + 1, j =>
      (readAt maxChildren children j).bind fun child =>
      (ask child).bind fun answer =>
        match answer with
        | none => some none
        | some true => some (some (some child))
        | some false => askChildrenAt ask children turns (j + 1)

/-- `find_in_subtree`, with so many calls on the stack at most. -/
def findInSubtreeAt (tree : Nat → NodeCell) (nNodes : Nat) : Nat → UInt8 → UInt8 → Option (Option Bool)
  | 0, _, _ => some none
  | fuel + 1, rootId, dstId =>
      if rootId = dstId then some (some true)
      else
        (firstIndex maxTreeNodes tree (·.id = rootId) nNodes).bind fun found =>
          match found with
          | none => some (some false)
          | some i =>
              (readAt maxTreeNodes tree i).bind fun node =>
                (askChildrenAt (fun child => findInSubtreeAt tree nNodes fuel child dstId)
                  node.children node.numChildren 0).map fun answer => answer.map Option.isSome

/-- `Search_forwarder` -/
def searchForwarderAt (fuel : Nat) (tree : Nat → NodeCell) (nNodes : Nat) (myId dstId : UInt8) :
    Option (Option UInt8) :=
  (firstIndex maxTreeNodes tree (·.id = myId) nNodes).bind fun found =>
    match found with
    | none => some (some 0)
    | some i =>
        (readAt maxTreeNodes tree i).bind fun node =>
          (askChildrenAt (fun child => findInSubtreeAt tree nNodes fuel child dstId)
            node.children node.numChildren 0).map fun answer => answer.map (·.getD 0)

/-- The decision of `routing_upstream_downstream`. -/
def routeHopAt (fuel : Nat) (tree : Nat → NodeCell) (nNodes : Nat) (bestParentId : LinkAddr)
    (myId dstId : UInt8) : Option (Option Decision) :=
  if dstId = myId then some (some .deliver)
  else
    (searchForwarderAt fuel tree nNodes myId dstId).map fun answer => answer.map fun forwarder =>
      if forwarder = 0 then
        if bestParentId = linkaddrNull then .drop else .forward bestParentId
      else .forward ⟨forwarder, 0⟩

/-! ### The data packets -/

/-- The blocks of `pkt_mem`, the list that runs through them, the number of posted `ev_route_pkt` events,
    `seq_num`, and the `send_buf` of `routing_upstream_downstream`. -/
structure PacketMemory where
  mem : Pool pktMem
  block : PktPtr → PktCell
  pktList : List PktPtr
  pending : Nat
  seqNum : Nat
  sendBuf : Memory

/-- The packet that takes the block `pe` to the next hop, and `send_buf`. -/
def sendPacketAt (packetbufSize : Nat) (self nextHop : LinkAddr) (sendBuf : Memory) (pe : PktCell) :
    Option (Memory × Frame) :=
  (stringFrom dataMsgSize pe.msg 0).bind fun msg =>
  let text := dstTag ++ decimal pe.dst.toNat ++ ch ':' :: msg
  (snprintfAt sendBufSize sendBuf 1 (sendBufSize - 1) text).bind fun buf =>
  let plen := u8 text.length
  (writeAt sendBufSize buf 0 uData).bind fun buf =>
  (readAll sendBufSize buf (plen + 2)).map fun data =>
    (buf, { src := self, dst := nextHop, data := packetbufCopyfrom packetbufSize data })

namespace PacketMemory

/-- `list_push` of the block that was allocated and filled, and `process_post`. -/
def queue (s : PacketMemory) (pe : PktPtr) (mem : Pool pktMem) (filled : PktCell) (posted : Bool) :
    PacketMemory :=
  { s with
    mem := mem
    block := Function.update s.block pe filled
    pktList := push pe s.pktList
    pending := if posted then s.pending + 1 else s.pending }

/-- One turn of `generate_pkt_dst`. -/
def generatePktDst (me : LinkAddr) (s : PacketMemory) (posted : Bool) : Option PacketMemory :=
  if me.u8_0 = origen then
    let s := { s with seqNum := u16 (s.seqNum + 1) }
    match alloc s.mem with
    | none => some s
    | some (pe, mem) =>
        (snprintfAt dataMsgSize (s.block pe).msg 0 dataMsgSize (seqText s.seqNum me.u8_0)).bind fun msg =>
        (stringFrom dataMsgSize msg 0).map fun _ => s.queue pe mem { dst := destino, msg := msg } posted
  else some s

/-- `memb_free(&pkt_mem, pe)` -/
def membFree (s : PacketMemory) (pe : PktPtr) : PacketMemory := { s with mem := free s.mem pe }

/-- What the loop does with the block `pe` once it is decided, and the packets that it sends. -/
def carryOut (packetbufSize : Nat) (me : LinkAddr) (s : PacketMemory) (pe : PktPtr) :
    Decision → Option (PacketMemory × List Frame)
  | .deliver => (stringFrom dataMsgSize (s.block pe).msg 0).map fun _ => (s.membFree pe, [])
  | .drop => some (s.membFree pe, [])
  | .forward nextHop =>
      (sendPacketAt packetbufSize me nextHop s.sendBuf (s.block pe)).map fun sent =>
        (({ s with sendBuf := sent.1 } : PacketMemory).membFree pe, [sent.2])

/-- `while((pe = list_head(pkt_list)) != NULL)`, for so many turns at most, with the packets that have
    been sent, the latest first. -/
def routeAll (packetbufSize : Nat) (me : LinkAddr) (tree : Nat → NodeCell) (nNodes : Nat)
    (bestParentId : LinkAddr) (fuel : Nat) :
    Nat → PacketMemory → List Frame → Option (Option (PacketMemory × List Frame))
  | 0, _, _ => some none
  | turns + 1, s, sent =>
      match s.pktList with
      | [] => some (some (s, sent))
      | pe :: _ =>
          let s := { s with pktList := s.pktList.erase pe }
          (routeHopAt fuel tree nNodes bestParentId me.u8_0 (s.block pe).dst).bind fun decided =>
            match decided with
            | none => some none
            | some decision =>
                (s.carryOut packetbufSize me pe decision).bind fun done =>
                  routeAll packetbufSize me tree nNodes bestParentId fuel turns done.1 (done.2 ++ sent)

end PacketMemory

/-! ### The node -/

/-- The static data of a node. `memory` holds `ctrl_payload`, the two trees and the statistics; `serialBuf`
    and `sendBuf` are those of `send_routing_table`. -/
structure NodeImage where
  neighbours : NeighbourTable
  memory : NodeMemory
  serialBuf : Memory
  sendBuf : Memory
  packets : PacketMemory

namespace NodeImage

/-- The static data after `select_prefered_parent` has run. -/
def boot (me : LinkAddr) : NodeImage where
  neighbours := .boot me
  memory := .boot me
  serialBuf := fun _ => 0
  sendBuf := fun _ => 0
  packets :=
    { mem := BlockPool.empty
      block := fun _ => { dst := 0, msg := fun _ => 0 }
      pktList := []
      pending := 0
      seqNum := 0
      sendBuf := fun _ => 0 }

/-- The end of `recv_uc`: a block that was allocated and filled is queued. -/
def queued (s : NodeImage) (memory : NodeMemory) (posted : Bool) :
    Option (PktPtr × Pool pktMem) → Option PktCell → NodeImage
  | some (pe, mem), some filled =>
      { s with memory := memory, packets := s.packets.queue pe mem filled posted }
  | _, _ => { s with memory := memory }

/-- `recv_uc` at the node `me`, whatever its stack holds. The block is the one that `memb_alloc` gives when
    the data branch calls it. -/
def recvUc (me : LinkAddr) (s : NodeImage) (source : LinkAddr) (raw : List UInt8) (stack : Memory)
    (posted : Bool) : Option NodeImage :=
  let allocated := alloc s.packets.mem
  (recvUcAt atoi me source raw stack (allocated.map fun a => s.packets.block a.1) posted s.memory).map
    fun received => s.queued received.1 posted allocated received.2

/-- The delivery of one `ev_update_routing` event to `update_routing_table`, if there is one. -/
def updateRoutingTable (me : LinkAddr) (s : NodeImage) : Option (Option NodeImage) :=
  match s.memory.pending with
  | 0 => some none
  | pending + 1 =>
      (updateRoutingTableAt atoi me { s.memory with pending := pending }).map fun memory =>
        some { s with memory := memory }

/-- One turn of `send_routing_table`, and the packet that it sends. -/
def sendRoutingTable (packetbufSize : Nat) (me : LinkAddr) (s : NodeImage) :
    Option (NodeImage × Option Frame) :=
  (sendRoutingTableAt packetbufSize me s.neighbours.bestParentId
      { routingTree := s.memory.routingTree
        treeNNodes := s.memory.treeNNodes
        serialBuf := s.serialBuf
        sendBuf := s.sendBuf }).map fun sent =>
    ({ s with serialBuf := sent.1.serialBuf, sendBuf := sent.1.sendBuf }, sent.2)

/-- One turn of `generate_pkt_dst`. -/
def generatePktDst (me : LinkAddr) (s : NodeImage) (posted : Bool) : Option NodeImage :=
  (s.packets.generatePktDst me posted).map fun packets => { s with packets := packets }

/-- The delivery of one `ev_route_pkt` event to `routing_upstream_downstream`, if there is one, and the
    packets that are sent. -/
def routingUpstreamDownstream (packetbufSize : Nat) (me : LinkAddr) (s : NodeImage) (fuel : Nat) :
    Option (Option (NodeImage × List Frame)) :=
  match s.packets.pending with
  | 0 => some none
  | pending + 1 =>
      (PacketMemory.routeAll packetbufSize me s.memory.routingTree s.memory.treeNNodes
          s.neighbours.bestParentId fuel fuel { s.packets with pending := pending } []).map fun routed =>
        routed.map fun done => ({ s with packets := done.1 }, done.2)

end NodeImage

end TreeRssi
