/-
Module: TreeRssi.Core.Data
Layer: Core
Purpose: The data packets of `Lab3/tree_rssi_remote.c`: the entries of `pkt_list` and the text that
  `routing_upstream_downstream` puts on the air for one of them; the data branch of `recv_uc`, which
  makes an entry of a received message and, at the sink, counts it; `generate_pkt_dst`; and the loss that
  `print_parent_list` computes. A `char` buffer that is read as a C string is the list of the bytes
  before its terminator, and a `uint16_t` is a natural number, reduced where the source stores it.
Imports: TreeRssi.Core.Control
Trusted boundary: human-reviewed spec
Main exports: PktMsg, PktEntry, PktStats, DataState, sendPacket, packetEntry, parseStats, updateStats,
  DataState.receive, DataState.generatePktDst, PktStats.lost, PktStats.lossPct
Open obligations: none
-/
import TreeRssi.Core.Control

namespace TreeRssi

open CText

/-! ### Entries and statistics -/

/-- The text in the `msg` of a `pkt_entry`: it is terminated inside its buffer. -/
structure PktMsg where
  text : List UInt8
  short : text.length < dataMsgSize
  noNul : ∀ b ∈ text, b ≠ 0
deriving DecidableEq, Repr

/-- `struct pkt_entry`, less the list link. -/
structure PktEntry where
  dst : UInt8
  msg : PktMsg
deriving DecidableEq, Repr

/-- `strncpy(pe->msg, src, sizeof(pe->msg) - 1); pe->msg[sizeof(pe->msg) - 1] = '\0';` -/
def strncpyMsg (src : List UInt8) : PktMsg where
  text := (cstr src).take (dataMsgSize - 1)
  short := Nat.lt_succ_of_le (List.length_take_le _ _)
  noNul := fun b member => by
    have kept := List.all_takeWhile (p := (· ≠ 0)) (l := src)
    rw [List.all_eq_true] at kept
    exact of_decide_eq_true (kept b (List.mem_of_mem_take member))

/-- Number of blocks in `pkt_mem`. -/
def pktMem : Nat := 10

/-- `MAX_PKT_SOURCES`. -/
def maxPktSources : Nat := 20

/-- The value that a `uint16_t` keeps of a natural number. -/
def u16 (n : Nat) : Nat := n % 65536

/-- The conversion of an `int` to a `uint16_t`. -/
def toU16 (value : Int) : Nat := (value % 65536).toNat

/-- `struct pkt_stats`. -/
structure PktStats where
  srcId : UInt8
  seqMax : Nat
  received : Nat
deriving DecidableEq, Repr

/-- The data plane of one node: `pkt_list`, `pkt_stats_table`, the `seq_num` of `generate_pkt_dst` and the
    `send_buf` of `routing_upstream_downstream`. -/
structure DataState where
  pktList : List PktEntry
  pktStatsTable : List PktStats
  seqNum : Nat
  sendBuf : Memory

/-- The data plane after boot. -/
def DataState.boot : DataState where
  pktList := []
  pktStatsTable := []
  seqNum := 0
  sendBuf := fun _ => 0

/-! ### routing_upstream_downstream -/

/-- `DST:` -/
def dstTag : List UInt8 := [ch 'D', ch 'S', ch 'T', ch ':']

/-- `sizeof(send_buf)`. -/
def sendBufSize : Nat := 42

/-- `DST:<dst>:<payload>` -/
def packetText (pe : PktEntry) : List UInt8 := dstTag ++ decimal pe.dst.toNat ++ ch ':' :: pe.msg.text

/-- The packet that takes one entry to the next hop: the type, the text behind it and its terminator. -/
def sendPacket (packetbufSize : Nat) (self nextHop : LinkAddr) (s : DataState) (pe : PktEntry) :
    DataState × Frame :=
  let buf := snprintf s.sendBuf 1 (sendBufSize - 1) (packetText pe)
  let plen := u8 (packetText pe).length
  let buf := store buf 0 [uData]
  ({ s with sendBuf := buf },
    { src := self, dst := nextHop, data := packetbufCopyfrom packetbufSize (bytes buf (plen + 2)) })

/-! ### recv_uc -/

/-- `while(*p != ':' && *p != '\0') p++; if(*p == ':') p++;` -/
def skipField (p : List UInt8) : List UInt8 := skipOne (ch ':') (p.dropWhile (· ≠ ch ':'))

/-- The entry that `recv_uc` makes of a message. -/
def packetEntry (source : LinkAddr) (msg : List UInt8) : PktEntry :=
  if dstTag.isPrefixOf msg then
    { dst := toU8 (atoi (msg.drop 4)), msg := strncpyMsg (skipField (msg.drop 4)) }
  else { dst := source.u8_0, msg := strncpyMsg msg }

/-- `SEQ:` -/
def seqTag : List UInt8 := [ch 'S', ch 'E', ch 'Q', ch ':']

/-- `pkt_seq` and `pkt_src` of a message. -/
def parseStats (msg : List UInt8) : Nat × UInt8 :=
  let sp := if dstTag.isPrefixOf msg then skipField (msg.drop 4) else msg
  if seqTag.isPrefixOf sp then
    let sp := sp.drop 4
    (toU16 (atoi sp), toU8 (atoi (skipField sp)))
  else (0, 0)

/-- `ps->received++; if(pkt_seq > ps->seq_max) ps->seq_max = pkt_seq;` -/
def PktStats.count (ps : PktStats) (pktSeq : Nat) : PktStats :=
  { ps with
    received := u16 (ps.received + 1)
    seqMax := if pktSeq > ps.seqMax then pktSeq else ps.seqMax }

/-- Count a packet in the first entry of its source; `none` when the source has no entry. -/
def countIn (pktSrc : UInt8) (pktSeq : Nat) : List PktStats → Option (List PktStats)
  | [] => none
  | ps :: rest =>
      if ps.srcId = pktSrc then some (ps.count pktSeq :: rest)
      else (countIn pktSrc pktSeq rest).map (ps :: ·)

/-- The statistics after a packet: a source without an entry gets one, unless the table is full. -/
def updateStats (pktSrc : UInt8) (pktSeq : Nat) (table : List PktStats) : List PktStats :=
  if pktSrc = 0 then table
  else
    match countIn pktSrc pktSeq table with
    | some updated => updated
    | none =>
        if table.length < maxPktSources then
          table ++ [({ srcId := pktSrc, seqMax := 0, received := 0 } : PktStats).count pktSeq]
        else table

/-- The data branch of `recv_uc` at the node `self`, for a packet from `source`: the sink counts it, and
    it is queued if the pool has a block. -/
def DataState.receive (self source : LinkAddr) (s : DataState) (raw : List UInt8) : DataState :=
  match recvUc raw with
  | .data msg =>
      let msg := cstr msg
      let stats := parseStats msg
      let s :=
        if self.u8_0 = 1 then
          { s with pktStatsTable := updateStats stats.2 stats.1 s.pktStatsTable }
        else s
      if s.pktList.length < pktMem then { s with pktList := packetEntry source msg :: s.pktList } else s
  | _ => s

/-- The sink counts a data packet, whether or not it is queued. -/
theorem DataState.receive_pktStatsTable {self source : LinkAddr} (s : DataState) {raw msg : List UInt8}
    (received : recvUc raw = .data msg) :
    (s.receive self source raw).pktStatsTable =
      if self.u8_0 = 1 then updateStats (parseStats (cstr msg)).2 (parseStats (cstr msg)).1 s.pktStatsTable
      else s.pktStatsTable := by
  rw [DataState.receive, received]
  simp only
  split <;> split <;> rfl

/-- Any other packet leaves the data plane alone. -/
theorem DataState.receive_other {self source : LinkAddr} (s : DataState) {raw : List UInt8}
    (other : ∀ msg, recvUc raw ≠ .data msg) : s.receive self source raw = s := by
  rw [DataState.receive]
  split
  next msg received => exact absurd received (other msg)
  next => rfl

/-! ### generate_pkt_dst -/

/-- `ORIGEN`. -/
def origen : UInt8 := 8

/-- `DESTINO`. -/
def destino : UInt8 := 17

/-- `SEQ:<seq>:<src>:Hi` -/
def seqText (seqNum : Nat) (src : UInt8) : List UInt8 :=
  seqTag ++ decimal seqNum ++ ch ':' :: (decimal src.toNat ++ [ch ':', ch 'H', ch 'i'])

/-- One turn of `generate_pkt_dst`: the origin counts, and queues a packet if the pool has a block. -/
def DataState.generatePktDst (self : LinkAddr) (s : DataState) : DataState :=
  if self.u8_0 = origen then
    let s := { s with seqNum := u16 (s.seqNum + 1) }
    if s.pktList.length < pktMem then
      { s with
        pktList := { dst := destino, msg := strncpyMsg (seqText s.seqNum self.u8_0) } :: s.pktList }
    else s
  else s

/-! ### print_parent_list -/

/-- `uint16_t lost = ps->seq_max - ps->received;` -/
def PktStats.lost (ps : PktStats) : Nat := toU16 ((ps.seqMax : Int) - (ps.received : Int))

/-- `loss_pct`, with an `int` of 32 bits. -/
def PktStats.lossPct (ps : PktStats) : Nat :=
  if ps.seqMax > 0 then u16 (ps.lost * 100 / ps.seqMax) else 0

end TreeRssi
