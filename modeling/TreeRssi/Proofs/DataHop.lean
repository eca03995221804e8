/-
Module: TreeRssi.Proofs.DataHop
Layer: Proofs
Purpose: One hop of a data packet: what `routing_upstream_downstream` sends for an entry and what
  `recv_uc` makes of it. The sender's buffer holds every packet whole, but the receiver copies it, header
  included, into a buffer that is no larger than the payload's, so the payload arrives cut to what the
  header leaves.
Imports: TreeRssi.Core.Data
Trusted boundary: none
Main exports: sendPacket_data, skipField_decimal, packetEntry_text, receive_sendPacket, dataHop_cuts,
  dataHop_preserves
Open obligations: none
-/
import TreeRssi.Core.Data

namespace TreeRssi

open CText

/-! ### Sending -/

theorem packetText_length (pe : PktEntry) :
    (packetText pe).length = (decimal pe.dst.toNat).length + 5 + pe.msg.text.length := by
  simp only [packetText, dstTag, List.length_append, List.length_cons, List.length_nil]
  omega

theorem packetText_ne_zero (pe : PktEntry) : ∀ b ∈ packetText pe, b ≠ 0 := by
  intro b member
  simp only [packetText, List.mem_append, List.mem_cons] at member
  rcases member with (inTag | inDst) | rfl | inMsg
  · exact ne_zero_of_all (by decide) b inTag
  · exact decimal_ne_zero _ b inDst
  · decide
  · exact pe.msg.noNul b inMsg

/-- The packet of an entry: the sender's buffer holds its text whole. -/
theorem sendPacket_data {packetbufSize : Nat} (big : 128 ≤ packetbufSize) (self nextHop : LinkAddr)
    (s : DataState) (pe : PktEntry) :
    (sendPacket packetbufSize self nextHop s pe).2.data = uData :: (packetText pe ++ [0]) := by
  have length := packetText_length pe
  have digits := decimal_u8_length pe.dst
  have short : pe.msg.text.length < 32 := pe.msg.short
  have whole : (packetText pe).take (sendBufSize - 1 - 1) = packetText pe :=
    List.take_of_length_le (by simp only [sendBufSize]; omega)
  have first : Holds s.sendBuf ([s.sendBuf 0] ++ []) := rfl
  have holds : Holds (store (snprintf s.sendBuf 1 (sendBufSize - 1) (packetText pe)) 0 [uData])
      (uData :: (packetText pe ++ [0])) := by
    rw [snprintf, if_neg (by decide), whole]
    exact first.store.store_head uData
  have plen : u8 (packetText pe).length + 2 = (uData :: (packetText pe ++ [0])).length := by
    rw [u8_of_lt (by omega)]
    simp
  change packetbufCopyfrom packetbufSize (bytes _ (u8 (packetText pe).length + 2)) = _
  rw [plen, holds, packetbufCopyfrom]
  apply List.take_of_length_le
  simp only [List.length_cons, List.length_append, List.length_nil]
  omega

/-! ### Receiving -/

/-- The message that `recv_uc` reads: at most 31 bytes of the text. -/
theorem recvUc_data {text : List UInt8} (noNul : ∀ b ∈ text, b ≠ 0) :
    ∃ msg, recvUc (uData :: (text ++ [0])) = .data msg ∧ cstr msg = text.take (dataMsgSize - 1) := by
  refine ⟨(text ++ [0]).take (dataMsgSize - 1) ++ [0], ?_, cstr_take noNul _⟩
  rw [recvUc, if_neg (by decide), if_pos rfl]

/-- A printed number and the colon behind it are skipped. -/
theorem skipField_decimal (n : Nat) (rest : List UInt8) :
    skipField (decimal n ++ ch ':' :: rest) = rest := by
  have digits : ∀ b ∈ decimal n, decide (b ≠ ch ':') = true := fun b member =>
    decide_eq_true (ne_of_isDigit (isDigit_of_mem_decimal member) (by decide))
  rw [skipField, List.dropWhile_append_of_pos digits, List.dropWhile_cons_of_neg (by simp), skipOne,
    if_pos rfl]

/-- A printed number is read up to the colon behind it. -/
theorem atoi_field {n : Nat} (small : n < 2147483648) (rest : List UInt8) :
    atoi (decimal n ++ ch ':' :: rest) = n :=
  atoi_decimal small fun b first => by
    cases Option.some.inj first
    decide

/-- The text behind a tag of four characters. -/
theorem tag_cases (a b c d : UInt8) (rest : List UInt8) :
    [a, b, c, d].isPrefixOf ([a, b, c, d] ++ rest) = true ∧ ([a, b, c, d] ++ rest).drop 4 = rest := by
  simp

/-- A message with a destination is parsed into it and what follows. -/
theorem packetEntry_text (source : LinkAddr) (dst : UInt8) (rest : List UInt8) :
    packetEntry source (dstTag ++ decimal dst.toNat ++ ch ':' :: rest) =
      { dst := dst, msg := strncpyMsg rest } := by
  have value : toU8 (atoi (decimal dst.toNat ++ ch ':' :: rest)) = dst := by
    rw [atoi_field (by have := dst.toNat_lt; omega), toU8_natCast]
  obtain ⟨tagged, behind⟩ := tag_cases (ch 'D') (ch 'S') (ch 'T') (ch ':')
    (decimal dst.toNat ++ ch ':' :: rest)
  rw [packetEntry, List.append_assoc, dstTag, if_pos tagged, behind, value, skipField_decimal]

/-- A received data packet is queued where the pool has a block, and lost otherwise. -/
theorem DataState.receive_pktList {self source : LinkAddr} {s : DataState} {raw msg : List UInt8}
    (received : recvUc raw = .data msg) :
    (s.receive self source raw).pktList =
      if s.pktList.length < pktMem then packetEntry source (cstr msg) :: s.pktList else s.pktList := by
  rw [DataState.receive, received]
  by_cases sink : self.u8_0 = 1
  · simp only [sink, if_true]
    split <;> rfl
  · simp only [sink, if_false]
    split <;> rfl

/-! ### One hop -/

/-- The payload that arrives: what the header leaves of the 31 bytes. -/
def arrivingMsg (pe : PktEntry) : List UInt8 :=
  pe.msg.text.take (26 - (decimal pe.dst.toNat).length)

theorem packetText_take (pe : PktEntry) : (packetText pe).take (dataMsgSize - 1) =
    dstTag ++ decimal pe.dst.toNat ++ ch ':' :: arrivingMsg pe := by
  have digits := decimal_u8_length pe.dst
  have header : (dstTag ++ decimal pe.dst.toNat ++ [ch ':']).length =
      (decimal pe.dst.toNat).length + 5 := by
    simp only [dstTag, List.length_append, List.length_cons, List.length_nil]
    omega
  have split : packetText pe = (dstTag ++ decimal pe.dst.toNat ++ [ch ':']) ++ pe.msg.text := by
    simp [packetText]
  have left : dataMsgSize - 1 - ((decimal pe.dst.toNat).length + 5) =
      26 - (decimal pe.dst.toNat).length := by
    simp only [dataMsgSize]
    omega
  rw [split, List.take_append, List.take_of_length_le (by simp only [header, dataMsgSize]; omega),
    header, left]
  simp [arrivingMsg]

/-- What the next hop queues: an entry for the same destination, with the payload that arrives. -/
theorem receive_sendPacket {packetbufSize : Nat} (big : 128 ≤ packetbufSize) (self next : LinkAddr)
    (sender receiver : DataState) (pe : PktEntry) :
    (receiver.receive next self (sendPacket packetbufSize self next sender pe).2.data).pktList =
      if receiver.pktList.length < pktMem then
        { dst := pe.dst, msg := strncpyMsg (arrivingMsg pe) } :: receiver.pktList
      else receiver.pktList := by
  obtain ⟨msg, received, read⟩ := recvUc_data (packetText_ne_zero pe)
  rw [sendPacket_data big, DataState.receive_pktList received, read, packetText_take,
    packetEntry_text]

/-- Copying a short text keeps it. -/
theorem strncpyMsg_text {text : List UInt8} (noNul : ∀ b ∈ text, b ≠ 0)
    (short : text.length < dataMsgSize) : (strncpyMsg text).text = text := by
  have whole : cstr text = text := by
    have ended : cstr (text ++ []) = text := cstr_append noNul (by simp)
    rwa [List.append_nil] at ended
  change (cstr text).take (dataMsgSize - 1) = text
  rw [whole]
  exact List.take_of_length_le (Nat.le_sub_one_of_lt short)

/-- A payload of 25 characters for node 17 loses its last one. -/
theorem dataHop_cuts :
    ¬ ∀ (packetbufSize : Nat), 128 ≤ packetbufSize → ∀ (self next : LinkAddr)
      (sender receiver : DataState), receiver.pktList.length < pktMem → ∀ pe : PktEntry,
        (receiver.receive next self (sendPacket packetbufSize self next sender pe).2.data).pktList =
          pe :: receiver.pktList := by
  intro same
  let pe : PktEntry :=
    { dst := 17
      msg := { text := List.replicate 25 (ch 'A'), short := by decide
               noNul := ne_zero_of_all (by decide) } }
  have sent := same 128 (by decide) ⟨2, 0⟩ ⟨3, 0⟩ .boot .boot (by decide) pe
  revert sent
  decide +kernel

/-- A hop preserves an entry exactly if the next node has a block for it, and the digits of its
    destination and its payload have at most 26 characters together. -/
theorem dataHop_preserves {packetbufSize : Nat} (big : 128 ≤ packetbufSize) (self next : LinkAddr)
    (sender receiver : DataState) (pe : PktEntry) :
    (receiver.receive next self (sendPacket packetbufSize self next sender pe).2.data).pktList =
        pe :: receiver.pktList ↔
      receiver.pktList.length < pktMem ∧
        (decimal pe.dst.toNat).length + pe.msg.text.length ≤ 26 := by
  have digits := decimal_u8_length pe.dst
  have cut : (arrivingMsg pe).length = min (26 - (decimal pe.dst.toNat).length) pe.msg.text.length :=
    List.length_take
  have arrives : (strncpyMsg (arrivingMsg pe)).text = arrivingMsg pe := by
    apply strncpyMsg_text
    · exact fun b member => pe.msg.noNul b (List.mem_of_mem_take member)
    · exact Nat.lt_of_le_of_lt (List.length_take_le' _ _) pe.msg.short
  rw [receive_sendPacket big self next sender receiver pe]
  by_cases room : receiver.pktList.length < pktMem
  swap
  · rw [if_neg room]
    exact iff_of_false (List.cons_ne_self _ _).symm fun both => room both.1
  rw [if_pos room, and_iff_right room, List.cons_eq_cons, and_iff_left rfl]
  constructor
  · intro same
    have text : arrivingMsg pe = pe.msg.text := by
      rw [← arrives, ← congrArg (fun pe => pe.msg.text) same]
    rw [text] at cut
    omega
  · intro fits
    have text : arrivingMsg pe = pe.msg.text := List.take_of_length_le (by omega)
    have msg : strncpyMsg (arrivingMsg pe) = pe.msg := by
      cases same : pe.msg with
      | mk text' short noNul =>
          rw [PktMsg.mk.injEq]
          rw [arrives, text, same]
    rw [msg]

/-- The first packet that node 8 generates arrives as it was. -/
theorem dataHop_preserves_generated :
    (DataState.boot.receive ⟨3, 0⟩ ⟨8, 0⟩ (sendPacket 128 ⟨8, 0⟩ ⟨3, 0⟩ .boot
      ⟨destino, strncpyMsg (seqText 1 origen)⟩).2.data).pktList =
      [⟨destino, strncpyMsg (seqText 1 origen)⟩] :=
  (dataHop_preserves (by decide) ⟨8, 0⟩ ⟨3, 0⟩ .boot .boot
    ⟨destino, strncpyMsg (seqText 1 origen)⟩).mpr (by decide)

end TreeRssi
