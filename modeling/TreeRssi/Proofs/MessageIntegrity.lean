/-
Module: TreeRssi.Proofs.MessageIntegrity
Layer: Proofs
Purpose: The text of a numbered packet from end to end. Every hop prints the header anew, cuts the packet
  to its receive buffer, looks for the colon behind the destination and copies the rest; a numbered text
  is short enough to come out of that as it went in, however many hops there are. At the sink a second
  parser reads the number and the source from the same bytes.
Imports: TreeRssi.Proofs.LossAccounting
Trusted boundary: none
Main exports: Hop, Hop.carry, relay, numberedEntry, Hop.carry_numbered, relay_numbered, message_integrity
Open obligations: none
-/
import TreeRssi.Proofs.LossAccounting

namespace TreeRssi

open CText

/-! ### Chains of hops -/

/-- One hop: a node in any state sends an entry to another node in any state. -/
structure Hop where
  me : LinkAddr
  nextHop : LinkAddr
  sender : DataState
  receiver : DataState

/-- The packet that the hop puts on the air for an entry. -/
def Hop.frame (packetbufSize : Nat) (hop : Hop) (pe : PktEntry) : Frame :=
  (sendPacket packetbufSize hop.me hop.nextHop hop.sender pe).2

/-- The receiver after `recv_uc`. -/
def Hop.arrived (packetbufSize : Nat) (hop : Hop) (pe : PktEntry) : DataState :=
  hop.receiver.receive hop.nextHop hop.me (hop.frame packetbufSize pe).data

/-- The receiver's pool has a block. -/
def Hop.HasBlock (hop : Hop) : Prop := hop.receiver.pktList.length < pktMem

instance (hop : Hop) : Decidable hop.HasBlock := inferInstanceAs (Decidable (_ < _))

/-- The entry that the receiver queues for an entry of the sender, if it has a block. -/
def Hop.carry (packetbufSize : Nat) (hop : Hop) (pe : PktEntry) : Option PktEntry :=
  if hop.HasBlock then (hop.arrived packetbufSize pe).pktList.head? else none

/-- The entry at the end of a chain of hops. -/
def relay (packetbufSize : Nat) : List Hop → PktEntry → Option PktEntry
  | [], pe => some pe
  | hop :: rest, pe => (hop.carry packetbufSize pe).bind (relay packetbufSize rest)

/-- The entry that `generate_pkt_dst` queues: `SEQ:<seq>:<src>:Hi` for `dst`. -/
def numberedEntry (seq : Nat) (src dst : UInt8) : PktEntry :=
  { dst := dst, msg := strncpyMsg (seqText seq src) }

/-! ### One hop -/

variable {packetbufSize seq : Nat} {src dst : UInt8}

theorem numberedEntry_text (numbered : seq < 65536) (src dst : UInt8) :
    (numberedEntry seq src dst).msg.text = seqText seq src := by
  apply strncpyMsg_text (seqText_ne_zero seq src)
  have length := seqText_length numbered src
  simp only [dataMsgSize]
  omega

/-- The message buffer of `recv_uc` holds the whole text. -/
theorem numberedEntry_arrives (numbered : seq < 65536) (src dst : UInt8) :
    strncpyMsg (arrivingMsg (numberedEntry seq src dst)) = (numberedEntry seq src dst).msg := by
  have digits := decimal_u8_length dst
  have length := seqText_length numbered src
  have whole : arrivingMsg (numberedEntry seq src dst) = seqText seq src := by
    rw [arrivingMsg, numberedEntry_text numbered]
    apply List.take_of_length_le
    change _ ≤ 26 - (decimal dst.toNat).length
    omega
  rw [whole]
  rfl

/-- The receiver queues the entry that was sent. -/
theorem Hop.carry_numbered (big : 128 ≤ packetbufSize) (numbered : seq < 65536) (hop : Hop) :
    hop.carry packetbufSize (numberedEntry seq src dst) =
      if hop.HasBlock then some (numberedEntry seq src dst) else none := by
  rw [Hop.carry]
  split
  next room =>
    have same : (hop.arrived packetbufSize (numberedEntry seq src dst)).pktList =
        numberedEntry seq src dst :: hop.receiver.pktList := by
      have arrived := receive_sendPacket big hop.me hop.nextHop hop.sender hop.receiver
        (numberedEntry seq src dst)
      rw [numberedEntry_arrives numbered] at arrived
      exact arrived.trans (if_pos room)
    rw [same, List.head?_cons]
  next => rfl

/-- At node 1 the second parser reads the number and the source, whether or not there is a block. -/
theorem Hop.parsed_numbered (big : 128 ≤ packetbufSize) (numbered : seq < 65536) (known : src ≠ 0)
    (hop : Hop) (sink : hop.nextHop.u8_0 = 1) :
    (∃ msg, recvUc (hop.frame packetbufSize (numberedEntry seq src dst)).data = .data msg ∧
      parseStats (cstr msg) = (seq, src)) ∧
    (hop.arrived packetbufSize (numberedEntry seq src dst)).pktStatsTable =
      updateStats src seq hop.receiver.pktStatsTable := by
  let arrival : DataArrival :=
    { hop := hop.me, dst := dst, seq := seq, src := src, numbered := numbered, known := known }
  have sent : (hop.frame packetbufSize (numberedEntry seq src dst)).data = arrival.raw :=
    arrival.raw_eq_sent big hop.me hop.nextHop hop.sender
  obtain ⟨msg, received, read⟩ := arrival.recvUc_raw
  have parsed : parseStats (cstr msg) = (seq, src) := by
    rw [read]
    exact parseStats_text arrival
  rw [Hop.arrived, sent]
  exact ⟨⟨msg, received, parsed⟩, receive_stats sink hop.receiver arrival⟩

/-! ### Any number of hops -/

/-- A chain of hops carries a numbered entry unchanged, or loses it where a pool is exhausted. -/
theorem relay_numbered (src dst : UInt8) (big : 128 ≤ packetbufSize) (numbered : seq < 65536)
    (hops : List Hop) :
    relay packetbufSize hops (numberedEntry seq src dst) =
      if ∀ hop ∈ hops, hop.HasBlock then some (numberedEntry seq src dst) else none := by
  induction hops with
  | nil => simp [relay]
  | cons hop rest ih =>
      rw [relay, hop.carry_numbered big numbered]
      by_cases room : hop.HasBlock
      · rw [if_pos room, Option.bind_some, ih]
        simp [room]
      · simp [room]

/-- A numbered packet for `dst` keeps its destination and its payload over any chain of hops, and is
    carried as long as the pools have blocks; and where it arrives at node 1, `recv_uc` reads its source
    and its number. -/
theorem message_integrity (big : 128 ≤ packetbufSize) (numbered : seq < 65536) (known : src ≠ 0)
    (dst : UInt8) (hops : List Hop) :
    (∀ pe, relay packetbufSize hops (numberedEntry seq src dst) = some pe →
      pe.dst = dst ∧ pe.msg.text = seqText seq src ∧
      ∀ last : Hop, last.nextHop.u8_0 = 1 →
        (∃ msg, recvUc (last.frame packetbufSize pe).data = .data msg ∧
          parseStats (cstr msg) = (seq, src)) ∧
        (last.arrived packetbufSize pe).pktStatsTable =
          updateStats src seq last.receiver.pktStatsTable) ∧
    ((∀ hop ∈ hops, hop.HasBlock) →
      relay packetbufSize hops (numberedEntry seq src dst) = some (numberedEntry seq src dst)) := by
  have relayed := relay_numbered src dst big numbered hops
  refine ⟨fun pe reached => ?_, fun rooms => by rw [relayed, if_pos rooms]⟩
  rw [relayed] at reached
  obtain ⟨-, same⟩ := Option.ite_none_right_eq_some.mp reached
  cases same
  exact ⟨rfl, numberedEntry_text numbered src dst, fun last => last.parsed_numbered big numbered known⟩

/-- Packet 65535 of node 255 for node 254 passes node 3 and arrives at node 1. -/
theorem message_integrity_twoHops :
    relay 128 [⟨⟨255, 0⟩, ⟨3, 0⟩, .boot, .boot⟩, ⟨⟨3, 0⟩, ⟨1, 0⟩, .boot, .boot⟩]
      (numberedEntry 65535 255 254) = some (numberedEntry 65535 255 254) :=
  (message_integrity (by decide) (by decide) (by decide) 254 _).2 (by decide)

end TreeRssi
