/-
Module: TreeRssi.Proofs.SendPath
Layer: Proofs
Purpose: The send path stays in its buffers. As long as the position is below the buffer's length, no write
  of `Serialize` leaves the buffer, every `snprintf` has room, and the position does not wrap; each of its
  loops keeps it there, so the returned length leaves room for a terminator. The packet that is built of it
  stays inside `send_buf`, and is the one of the model on lists.
Imports: TreeRssi.Core.SendPath, TreeRssi.Proofs.ReceivePath
Trusted boundary: none
Main exports: putAt_some, serializeChildrenAt_some, serializeNodesAt_some, serializeAt_some,
  sendRoutingTableAt_some, sendRoutingTableAt_reached, sendPath_inBounds
Open obligations: none
-/
import TreeRssi.Core.SendPath
import TreeRssi.Proofs.ReceivePath

namespace TreeRssi

open CText Bounds

/-! ### Serialize -/

variable {bufLen size : Nat} {s : Cursor} {tree : Nat → NodeCell}

/-- The position leaves room for a terminator, and a `uint8_t` holds it. -/
structure InBuffer (bufLen : Nat) (s : Cursor) : Prop where
  small : bufLen ≤ 255
  inside : s.pos < bufLen

theorem InBuffer.lt_iff (inBuffer : InBuffer bufLen s) :
    (s.pos : Int) < bufLen - 1 ↔ s.pos < bufLen - 1 := by
  have inside := inBuffer.inside
  omega

theorem InBuffer.advance_some (inBuffer : InBuffer bufLen s) {written : Nat}
    (room : s.pos + written < bufLen) :
    advance s.pos written = some (u8 (s.pos + written)) ∧ u8 (s.pos + written) = s.pos + written := by
  have small := inBuffer.small
  have same : u8 (s.pos + written) = s.pos + written := u8_of_lt (by omega)
  rw [advance, if_pos (by omega), same]
  exact ⟨rfl, rfl⟩

/-- A separator and its terminator fit behind a position that is not the last. -/
theorem InBuffer.putAt_some (inBuffer : InBuffer bufLen s) (room : s.pos < bufLen - 1) (c : UInt8) :
    s.putAt bufLen c = some (s.put c) ∧ InBuffer bufLen (s.put c) := by
  have inside := inBuffer.inside
  obtain ⟨advanced, pos⟩ := inBuffer.advance_some (show s.pos + 1 < bufLen by omega)
  refine ⟨?_, inBuffer.small, ?_⟩
  · rw [Cursor.putAt, writeAt_some inside, Option.bind_some, advanced, Option.bind_some, pos,
      writeAt_some (by omega), Option.map_some, Cursor.put, pos]
    rfl
  · rw [Cursor.put, pos]
    exact Nat.add_lt_of_lt_sub room

/-- A print has room, and stays inside the buffer. -/
theorem InBuffer.snprintfAt_some (inBuffer : InBuffer bufLen s) (text : List UInt8) :
    snprintfAt bufLen s.buf s.pos (bufLen - s.pos) text =
      some (snprintf s.buf s.pos (bufLen - s.pos) text) := by
  have inside := inBuffer.inside
  rw [Bounds.snprintfAt_some (by omega) (by omega)]
  congr 2
  omega

/-- Behind a print that fits the position is inside the buffer. -/
theorem InBuffer.printed (inBuffer : InBuffer bufLen s) {text : List UInt8}
    (room : s.pos + text.length < bufLen) :
    advance s.pos text.length = some (u8 (s.pos + text.length)) ∧
      InBuffer bufLen
        { buf := snprintf s.buf s.pos (bufLen - s.pos) text, pos := u8 (s.pos + text.length) } := by
  obtain ⟨advanced, pos⟩ := inBuffer.advance_some room
  refine ⟨advanced, inBuffer.small, ?_⟩
  rw [pos]
  exact room

/-- The loop over the children keeps the position inside the buffer. -/
theorem serializeChildrenAt_some {node : NodeCell} (fits : node.numChildren ≤ maxChildren) {turns j : Nat}
    (count : j + turns = node.numChildren) (inBuffer : InBuffer bufLen s) :
    ∃ s', serializeChildrenAt bufLen node turns j s = some s' ∧ InBuffer bufLen s' ∧
      s' = serializeChildren bufLen (j = 0) (node.view.children.drop j) s := by
  induction turns generalizing j s with
  | zero =>
      have ended : node.view.children.drop j = [] :=
        List.drop_of_length_le (by rw [view_children_length]; omega)
      exact ⟨s, rfl, inBuffer, by rw [ended, serializeChildren]⟩
  | succ turns ih =>
      have below : j < node.view.children.length := by
        rw [view_children_length]
        omega
      have child : node.view.children[j] = node.children j := by simp [NodeCell.view, bytes]
      rw [serializeChildrenAt, List.drop_eq_getElem_cons below, serializeChildren, child]
      by_cases room : s.pos < bufLen - 1
      · rw [if_pos (inBuffer.lt_iff.mpr room), if_pos room]
        -- The comma is written in front of every child but the first.
        obtain ⟨s₁, comma, inBuffer₁, same⟩ : ∃ s₁,
            (if j > 0 then s.putAt bufLen (ch ',') else some s) = some s₁ ∧ InBuffer bufLen s₁ ∧
              (if decide (j = 0) = true then s else s.put (ch ',')) = s₁ := by
          by_cases first : j = 0
          · exact ⟨s, if_neg (by omega), inBuffer, by simp [first]⟩
          · obtain ⟨put, inBuffer'⟩ := inBuffer.putAt_some room (ch ',')
            exact ⟨_, by rw [if_pos (Nat.pos_of_ne_zero first), put], inBuffer', by simp [first]⟩
        rw [comma, Option.bind_some, readAt_some (by omega), Option.bind_some, same]
        simp only [inBuffer₁.snprintfAt_some, Option.bind_some, ge_iff_le]
        by_cases full : bufLen ≤ s₁.pos + (decimal (node.children j).toNat).length
        · simp only [if_pos full]
          exact ⟨_, rfl, ⟨inBuffer₁.small, inBuffer₁.inside⟩, rfl⟩
        · obtain ⟨advanced, inBuffer₂⟩ := inBuffer₁.printed (Nat.not_le.mp full)
          simp only [if_neg full, advanced, Option.bind_some]
          obtain ⟨s', looped, inBuffer', same'⟩ := ih (j := j + 1) (by omega) inBuffer₂
          exact ⟨s', looped, inBuffer', by simpa using same'⟩
      · rw [if_neg (mt inBuffer.lt_iff.mp room), if_neg room]
        exact ⟨s, rfl, inBuffer, rfl⟩

/-- The loop over the entries keeps the position inside the buffer. -/
theorem serializeNodesAt_some {nNodes : Nat} (entries : nNodes ≤ size)
    (children : ∀ i < nNodes, (tree i).numChildren ≤ maxChildren) {turns i : Nat}
    (count : i + turns = nNodes) (inBuffer : InBuffer bufLen s) :
    ∃ s', serializeNodesAt bufLen size tree turns i s = some s' ∧ InBuffer bufLen s' ∧
      s' = serializeNodes bufLen ((treeView tree nNodes).drop i) s := by
  have length : (treeView tree nNodes).length = nNodes := contents_length _ _
  induction turns generalizing i s with
  | zero =>
      have ended : (treeView tree nNodes).drop i = [] := List.drop_of_length_le (by omega)
      exact ⟨s, rfl, inBuffer, by rw [ended, serializeNodes]⟩
  | succ turns ih =>
      have below : i < (treeView tree nNodes).length := by omega
      have entry : (treeView tree nNodes)[i] = (tree i).view := by simp [treeView, contents]
      rw [serializeNodesAt, List.drop_eq_getElem_cons below, serializeNodes, entry]
      by_cases room : s.pos < bufLen - 1
      · rw [if_pos (inBuffer.lt_iff.mpr room), if_pos room, readAt_some (by omega), Option.bind_some]
        simp only [inBuffer.snprintfAt_some, Option.bind_some, ge_iff_le]
        by_cases full : bufLen ≤ s.pos + (decimal (tree i).id.toNat ++ [ch ':']).length
        · simp only [if_pos full]
          exact ⟨_, rfl, ⟨inBuffer.small, inBuffer.inside⟩, (if_pos full).symm⟩
        · obtain ⟨advanced, inBuffer₁⟩ := inBuffer.printed (Nat.not_le.mp full)
          simp only [if_neg full, advanced, Option.bind_some]
          obtain ⟨s₂, looped, inBuffer₂, same⟩ :=
            serializeChildrenAt_some (children i (by omega)) (Nat.zero_add _) inBuffer₁
          -- The semicolon is written if a position is left for it.
          obtain ⟨s₃, ended, inBuffer₃, same'⟩ : ∃ s₃,
              (if (s₂.pos : Int) < bufLen - 1 then s₂.putAt bufLen (ch ';') else some s₂) = some s₃ ∧
                InBuffer bufLen s₃ ∧ s₃ = if s₂.pos < bufLen - 1 then s₂.put (ch ';') else s₂ := by
            by_cases left : s₂.pos < bufLen - 1
            · obtain ⟨put, inBuffer'⟩ := inBuffer₂.putAt_some left (ch ';')
              exact ⟨_, by rw [if_pos (inBuffer₂.lt_iff.mpr left), put], inBuffer', by rw [if_pos left]⟩
            · exact ⟨s₂, if_neg (mt inBuffer₂.lt_iff.mp left), inBuffer₂, by rw [if_neg left]⟩
          obtain ⟨s', rest, inBuffer', same''⟩ := ih (i := i + 1) (by omega) inBuffer₃
          rw [looped, Option.bind_some, ended, Option.bind_some]
          refine ⟨s', rest, inBuffer', ?_⟩
          rw [same'', same', same]
          exact (if_neg full).symm
      · rw [if_neg (mt inBuffer.lt_iff.mp room), if_neg room]
        exact ⟨s, rfl, inBuffer, rfl⟩

/-- `Serialize` stays inside its buffer, and does what the model on lists does. -/
theorem serializeAt_some {nNodes : Nat} (entries : nNodes ≤ size)
    (children : ∀ i < nNodes, (tree i).numChildren ≤ maxChildren) (positive : 0 < bufLen)
    (small : bufLen ≤ 255) (buf : Memory) :
    serializeAt bufLen size tree nNodes buf = some (serialize (treeView tree nNodes) buf bufLen) ∧
      (serialize (treeView tree nNodes) buf bufLen).pos < bufLen := by
  have start : InBuffer bufLen { buf := store buf 0 [0], pos := 0 } := ⟨small, positive⟩
  obtain ⟨s, looped, inBuffer, same⟩ := serializeNodesAt_some entries children (Nat.zero_add _) start
  rw [List.drop_zero] at same
  rw [serializeAt, writeAt_some positive, Option.bind_some, serialize, ← same]
  exact ⟨looped, inBuffer.inside⟩

/-! ### send_routing_table -/

variable {memory : SendMemory} {self bestParentId : LinkAddr} {packetbufSize : Nat}

/-- The string that is sent stays inside `serial_buf`. -/
theorem serialiseAt_some (fits : FitsCells memory.routingTree memory.treeNNodes) (self : LinkAddr)
    {control : ControlState}
    (table : treeView memory.routingTree memory.treeNNodes = control.routingTree)
    (buffer : memory.serialBuf = control.serialBuf) :
    memory.serialiseAt self = some (control.serialise self) ∧
      (control.serialise self).pos < treeSerialBuf := by
  have length : control.routingTree.length = memory.treeNNodes := by
    rw [← table]
    exact contents_length _ _
  rw [SendMemory.serialiseAt, ControlState.serialise, length]
  by_cases leaf : memory.treeNNodes = 0
  · have digits := decimal_u8_length self.u8_0
    have short : (decimal self.u8_0.toNat ++ [ch ':', ch ';']).length ≤ 5 := by
      simp only [List.length_append, List.length_cons, List.length_nil]
      omega
    have small : u8 (decimal self.u8_0.toNat ++ [ch ':', ch ';']).length =
        (decimal self.u8_0.toNat ++ [ch ':', ch ';']).length := u8_of_lt (by omega)
    simp only [if_pos leaf, buffer]
    rw [snprintfAt_some (by decide) (by decide), Option.bind_some, advance, if_pos (by omega),
      Option.map_some, small, Nat.zero_add]
    exact ⟨rfl, Nat.lt_of_le_of_lt short (by decide)⟩
  · simp only [if_neg leaf, buffer, ← table]
    exact serializeAt_some fits.entries fits.children (by decide) (by decide) _

/-- The packet is the type and the string with one more byte. -/
theorem sendBuf_some (sendBuf serialBuf : Memory) {slen : Nat} (inside : slen < treeSerialBuf) :
    ∃ sent, ((writeAt (treeSerialBuf + 1) sendBuf 0 uControl).bind fun sendBuf =>
        copy (treeSerialBuf + 1) sendBuf 1 treeSerialBuf serialBuf 0 (slen + 1)) = some sent ∧
      readAll (treeSerialBuf + 1) sent (slen + 2) = some (uControl :: bytes serialBuf (slen + 1)) := by
  obtain ⟨sent, copied, same, rest⟩ := copy_some (fun j => if j = 0 then uControl else sendBuf j) serialBuf
    (show 1 + (slen + 1) ≤ treeSerialBuf + 1 by omega) (show 0 + (slen + 1) ≤ treeSerialBuf by omega)
  refine ⟨sent, by rw [writeAt_some (Nat.succ_pos _), Option.bind_some, copied], ?_⟩
  have first : sent 0 = uControl := rest 0 (.inl Nat.one_pos)
  have text : contents (fun i => sent (i + 1)) (slen + 1) = contents serialBuf (slen + 1) :=
    contents_congr fun i below => by rw [Nat.add_comm i 1, same i below, Nat.zero_add]
  rw [readAll_some (by omega)]
  have split := contents_cons sent (slen + 1)
  rw [text, first] at split
  exact congrArg some split

/-- A turn of `send_routing_table` stays inside its buffers, and sends what the model on lists sends. -/
theorem sendRoutingTableAt_some (fits : FitsCells memory.routingTree memory.treeNNodes)
    (packetbufSize : Nat) (self bestParentId : LinkAddr) {control : ControlState}
    (table : treeView memory.routingTree memory.treeNNodes = control.routingTree)
    (buffer : memory.serialBuf = control.serialBuf) :
    ∃ after, sendRoutingTableAt packetbufSize self bestParentId memory =
        some (after, (sendRoutingTable packetbufSize self bestParentId control).2) ∧
      after.routingTree = memory.routingTree ∧ after.treeNNodes = memory.treeNNodes ∧
      after.serialBuf = (sendRoutingTable packetbufSize self bestParentId control).1.serialBuf := by
  rw [sendRoutingTableAt, sendRoutingTable]
  by_cases orphan : bestParentId = linkaddrNull
  · simp only [if_pos orphan]
    exact ⟨memory, rfl, rfl, rfl, buffer⟩
  · obtain ⟨serialised, inside⟩ := serialiseAt_some fits self table buffer
    simp only [if_neg orphan, serialised, Option.bind_some]
    by_cases nothing : (control.serialise self).pos = 0
    · simp only [if_pos nothing]
      exact ⟨_, rfl, rfl, rfl, rfl⟩
    · obtain ⟨sent, built, read⟩ := sendBuf_some memory.sendBuf (control.serialise self).buf inside
      obtain ⟨started, typed, copied⟩ := Option.bind_eq_some_iff.mp built
      simp only [if_neg nothing, typed, copied, read, Option.bind_some, Option.map_some]
      exact ⟨_, rfl, rfl, rfl, rfl⟩

/-- A turn of `send_routing_table` stays inside its buffers. -/
theorem sendRoutingTableAt_inBuffers (fits : FitsCells memory.routingTree memory.treeNNodes)
    (packetbufSize : Nat) (self bestParentId : LinkAddr) :
    ∃ after, sendRoutingTableAt packetbufSize self bestParentId memory = some after := by
  let control : ControlState :=
    { routingTree := treeView memory.routingTree memory.treeNNodes, serialBuf := memory.serialBuf,
      ctrlPayload := [], pending := 0 }
  have table : treeView memory.routingTree memory.treeNNodes = control.routingTree := rfl
  obtain ⟨after, sent, -⟩ := sendRoutingTableAt_some fits packetbufSize self bestParentId table rfl
  exact ⟨_, sent⟩

/-- The tables that the receive path leaves behind can be sent. -/
theorem sendRoutingTableAt_reached {atoi : List UInt8 → Int} {me : LinkAddr} {received : NodeMemory}
    {allowed : NodeMemory → MemoryEvent → Prop} {trace : List (NodeMemory × MemoryEvent)}
    (run : LabelledRun.Run (NodeMemory.next atoi me) allowed (.boot me) trace received)
    (packetbufSize : Nat) (bestParentId : LinkAddr) (serialBuf sendBuf : Memory) :
    ∃ after, sendRoutingTableAt packetbufSize me bestParentId
      ⟨received.routingTree, received.treeNNodes, serialBuf, sendBuf⟩ = some after :=
  sendRoutingTableAt_inBuffers (run_sound atoi me run).table packetbufSize me bestParentId

/-- `Serialize` of any array whose entries have at most 8 children, into a buffer of 1 to 255 bytes, makes no
    access outside the array or the buffer, gives every `snprintf` a size, does not wrap its position, and
    returns less than the length of the buffer; and a turn of `send_routing_table` stays inside
    `serial_buf` and `send_buf`. -/
theorem sendPath_inBounds :
    (∀ (tree : Nat → NodeCell) (size nNodes bufLen : Nat) (buf : Memory), nNodes ≤ size →
      (∀ i < nNodes, (tree i).numChildren ≤ maxChildren) → 1 ≤ bufLen → bufLen ≤ 255 →
      ∃ s, serializeAt bufLen size tree nNodes buf = some s ∧ s.pos ≤ bufLen - 1) ∧
    ∀ (packetbufSize : Nat) (self bestParentId : LinkAddr) (memory : SendMemory),
      FitsCells memory.routingTree memory.treeNNodes →
      ∃ after, sendRoutingTableAt packetbufSize self bestParentId memory = some after := by
  refine ⟨fun tree size nNodes bufLen buf entries children positive small => ?_,
    fun packetbufSize self bestParentId memory fits => ?_⟩
  · obtain ⟨serialised, inside⟩ := serializeAt_some entries children positive small buf
    exact ⟨_, serialised, Nat.le_sub_one_of_lt inside⟩
  · exact sendRoutingTableAt_inBuffers fits packetbufSize self bestParentId

/-- Node 255 with eight children, in the buffer of one entry that is too short by one byte and in
    `serial_buf`. -/
theorem sendPath_inBounds_fullEntry :
    (∃ s, serializeAt 35 1 (fun _ => ⟨255, fun _ => 200, 8⟩) 1 (fun _ => 1) = some s ∧ s.pos ≤ 34) ∧
      ∃ after, sendRoutingTableAt 128 ⟨255, 0⟩ ⟨1, 0⟩
        ⟨fun _ => ⟨255, fun _ => 200, 8⟩, 1, fun _ => 1, fun _ => 1⟩ = some after := by
  have full : ∀ i < 1, (8 : Nat) ≤ maxChildren := fun _ _ => by decide
  exact ⟨sendPath_inBounds.1 _ 1 1 35 _ (Nat.le_refl _) full (by decide) (by decide),
    sendPath_inBounds.2 128 ⟨255, 0⟩ ⟨1, 0⟩ _ ⟨by decide, full⟩⟩

end TreeRssi
