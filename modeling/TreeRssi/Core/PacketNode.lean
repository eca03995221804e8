/-
Module: TreeRssi.Core.PacketNode
Layer: Core
Purpose: The data plane of one node of `Lab3/tree_rssi_remote.c` with its memory and its events: the
  blocks of `pkt_mem`, the list that runs through them and the `ev_route_pkt` events that are posted and
  not delivered. Two callbacks put packets on the list, and `routing_upstream_downstream` takes all of
  them off when an event is delivered. A log beside the state of the program records what became of each
  packet that obtained a block.
Imports: TreeRssi.Core.Data, TreeRssi.Core.Routing, TreeRssi.Lib.BlockPool
Trusted boundary: human-reviewed spec
Main exports: Packet, Consumption, PacketLog, PacketNode, PacketNode.receive, PacketNode.generatePktDst,
  PacketNode.routingUpstreamDownstream, PacketEvent, PacketNode.next, PacketNode.view
Open obligations: none
-/
import TreeRssi.Core.Data
import TreeRssi.Core.Routing
import TreeRssi.Lib.BlockPool

namespace TreeRssi

open BlockPool

/-! ### The log -/

/-- A packet that obtained a block: how many had obtained one before, and what it carries. -/
structure Packet where
  number : Nat
  entry : PktEntry
deriving DecidableEq, Repr

/-- The end of a packet at a node, with the parent that the node had then. -/
structure Consumption where
  packet : Packet
  bestParentId : LinkAddr
  decision : Decision
deriving DecidableEq, Repr

/-- Everything that happened to the packets of a node, the latest first: the packets that obtained a
    block, the decisions about them, the calls of `memb_free` and those of `unicast_send`. -/
structure PacketLog where
  obtained : List Packet
  consumed : List Consumption
  freed : List Packet
  sent : List Frame

/-- The next hop of a packet that is forwarded. -/
def Consumption.nextHop (c : Consumption) : Option LinkAddr :=
  match c.decision with
  | .forward nextHop => some nextHop
  | _ => none

/-! ### The node -/

/-- A pointer to a block of `pkt_mem`. -/
abbrev PktPtr := Fin pktMem

/-- The static data of the data plane, the number of posted `ev_route_pkt` events, and the log, for which
    each block remembers the number of its packet. -/
structure PacketNode where
  mem : Pool pktMem
  block : PktPtr → PktEntry
  pktList : List PktPtr
  pending : Nat
  pktStatsTable : List PktStats
  seqNum : Nat
  sendBuf : CText.Memory
  number : PktPtr → Nat
  log : PacketLog

namespace PacketNode

/-- The data plane after boot. -/
def boot : PacketNode where
  mem := BlockPool.empty
  block := fun _ => { dst := 0, msg := strncpyMsg [] }
  pktList := []
  pending := 0
  pktStatsTable := []
  seqNum := 0
  sendBuf := fun _ => 0
  number := fun _ => 0
  log := { obtained := [], consumed := [], freed := [], sent := [] }

/-- The entries that the list runs through, with the other data. -/
def view (s : PacketNode) : DataState where
  pktList := s.pktList.map s.block
  pktStatsTable := s.pktStatsTable
  seqNum := s.seqNum
  sendBuf := s.sendBuf

/-- The packet in a block. -/
def packet (s : PacketNode) (pe : PktPtr) : Packet := { number := s.number pe, entry := s.block pe }

/-! ### The producers -/

/-- `memb_alloc`, the entry, `list_push` and `process_post`; nothing when `memb_alloc` has no block. -/
def enqueue (s : PacketNode) (entry : PktEntry) : PacketNode :=
  match alloc s.mem with
  | none => s
  | some (pe, mem) =>
      let number := s.log.obtained.length
      { s with
        mem := mem
        block := Function.update s.block pe entry
        pktList := push pe s.pktList
        pending := s.pending + 1
        number := Function.update s.number pe number
        log := { s.log with obtained := { number := number, entry := entry } :: s.log.obtained } }

/-- The data branch of `recv_uc` at the node `me`, for a packet from `source`. -/
def receive (me source : LinkAddr) (s : PacketNode) (raw : List UInt8) : PacketNode :=
  match recvUc raw with
  | .data msg =>
      let msg := CText.cstr msg
      let stats := parseStats msg
      let s :=
        if me.u8_0 = 1 then { s with pktStatsTable := updateStats stats.2 stats.1 s.pktStatsTable }
        else s
      s.enqueue (packetEntry source msg)
  | _ => s

/-- One turn of `generate_pkt_dst`. -/
def generatePktDst (me : LinkAddr) (s : PacketNode) : PacketNode :=
  if me.u8_0 = origen then
    let s := { s with seqNum := u16 (s.seqNum + 1) }
    s.enqueue { dst := destino, msg := strncpyMsg (seqText s.seqNum me.u8_0) }
  else s

/-! ### routing_upstream_downstream -/

/-- `memb_free(&pkt_mem, pe)` -/
def membFree (s : PacketNode) (pe : PktPtr) : PacketNode :=
  { s with
    mem := free s.mem pe
    log := { s.log with freed := s.packet pe :: s.log.freed } }

/-- The packet in a block has come to its end. -/
def consume (s : PacketNode) (pe : PktPtr) (bestParentId : LinkAddr) (decision : Decision) :
    PacketNode :=
  { s with log := { s.log with
    consumed := { packet := s.packet pe, bestParentId := bestParentId, decision := decision } ::
      s.log.consumed } }

/-- `unicast_send` of the packet in a block. -/
def unicastSend (packetbufSize : Nat) (me nextHop : LinkAddr) (s : PacketNode) (pe : PktPtr) :
    PacketNode :=
  let sent := sendPacket packetbufSize me nextHop s.view (s.block pe)
  { s with sendBuf := sent.1.sendBuf, log := { s.log with sent := sent.2 :: s.log.sent } }

/-- What the loop does with a packet once it is decided: each way out frees the block. -/
def carryOut (packetbufSize : Nat) (me bestParentId : LinkAddr) (s : PacketNode) (pe : PktPtr)
    (decision : Decision) : PacketNode :=
  match decision with
  | .deliver => (s.consume pe bestParentId .deliver).membFree pe
  | .drop => (s.consume pe bestParentId .drop).membFree pe
  | .forward nextHop =>
      ((s.unicastSend packetbufSize me nextHop pe).consume pe bestParentId (.forward nextHop)).membFree pe

/-- `while((pe = list_head(pkt_list)) != NULL)`, for so many turns at most; `none` when they are not
    enough, or when a search needs more of them. -/
def routeAll (packetbufSize : Nat) (me : LinkAddr) (tree : RoutingTree) (bestParentId : LinkAddr)
    (fuel : Nat) : Nat → PacketNode → Option PacketNode
  | 0, _ => none
  | turns + 1, s =>
      match s.pktList with
      | [] => some s
      | pe :: _ =>
          let s := { s with pktList := s.pktList.erase pe }
          (routeHop fuel tree bestParentId me.u8_0 (s.block pe).dst).bind fun decision =>
            routeAll packetbufSize me tree bestParentId fuel turns
              (s.carryOut packetbufSize me bestParentId pe decision)

/-- The delivery of one `ev_route_pkt` event to `routing_upstream_downstream`, if there is one. -/
def routingUpstreamDownstream (packetbufSize : Nat) (me : LinkAddr) (s : PacketNode) (fuel : Nat)
    (tree : RoutingTree) (bestParentId : LinkAddr) : Option PacketNode :=
  match s.pending with
  | 0 => none
  | pending + 1 =>
      routeAll packetbufSize me tree bestParentId fuel fuel { s with pending := pending }

end PacketNode

/-! ### Runs of one node -/

/-- What happens to the data plane: a packet of any bytes is received, `generate_pkt_dst` takes a turn, or
    an event is delivered, with the routing table and the parent that the node has then. -/
inductive PacketEvent where
  | receive (source : LinkAddr) (raw : List UInt8)
  | generate
  | route (fuel : Nat) (tree : RoutingTree) (bestParentId : LinkAddr)

/-- One step of the data plane of the node `me`. -/
def PacketNode.next (packetbufSize : Nat) (me : LinkAddr) (s : PacketNode) :
    PacketEvent → Option PacketNode
  | .receive source raw => some (s.receive me source raw)
  | .generate => some (s.generatePktDst me)
  | .route fuel tree bestParentId =>
      s.routingUpstreamDownstream packetbufSize me fuel tree bestParentId

end TreeRssi
