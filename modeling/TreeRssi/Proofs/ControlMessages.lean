/-
Module: TreeRssi.Proofs.ControlMessages
Layer: Proofs
Purpose: A control message from end to end: what `send_routing_table` puts into a packet, `recv_uc`
  copies out of it and `Deserialize` reads. Whatever the truncation, and although the byte behind a
  truncated text is no terminator, the receiver reads the first entries of the sender's table, the
  sender's own entry first, and no edge that the sender does not have.
Imports: TreeRssi.Proofs.Codec, TreeRssi.Proofs.Table
Trusted boundary: none
Main exports: sentTree, ControlState.serialise_spec, sendRoutingTable_payload,
  Told, sendRoutingTable_told, sendRoutingTable_exact
Open obligations: none
-/
import TreeRssi.Proofs.Codec
import TreeRssi.Proofs.Table

namespace TreeRssi

open CText

/-! ### Sending -/

/-- The table that a control message describes: a node without a table announces an entry of its
    own. -/
def sentTree (self : LinkAddr) (tree : RoutingTree) : RoutingTree :=
  if tree.length = 0 then [{ id := self.u8_0, children := [] }] else tree

theorem sentTree_fits (self : LinkAddr) {tree : RoutingTree} (fits : FitsArrays tree) :
    FitsArrays (sentTree self tree) := by
  rw [sentTree]
  split
  · exact ⟨by simp [maxTreeNodes], by simp⟩
  · exact fits

theorem hasEdge_sentTree {self : LinkAddr} {tree : RoutingTree} {p c : UInt8} :
    HasEdge (sentTree self tree) p c ↔ HasEdge tree p c := by
  rw [sentTree]
  split
  next empty => simp [HasEdge, List.length_eq_zero_iff.mp empty]
  next => rfl

theorem headId_sentTree {self : LinkAddr} {tree : RoutingTree}
    (own : ∀ id ∈ headId tree, id = self.u8_0) : headId (sentTree self tree) = some self.u8_0 := by
  cases tree with
  | nil => rfl
  | cons first rest => exact congrArg some (own first.id rfl)

/-- An entry of at most eight children is far shorter than the buffer. -/
theorem entryText_length_lt {node : TreeNode} (short : node.children.length ≤ maxChildren) :
    (entryText node).length < treeSerialBuf := by
  have children : ∀ (cs : List UInt8) first, (childrenText first cs).length ≤ 4 * cs.length := by
    intro cs
    induction cs with
    | nil => simp [childrenText]
    | cons c cs ih =>
        intro first
        have digits := decimal_u8_length c
        have rest := ih false
        cases first with
        | true => simp only [childrenText, if_true, List.length_append, List.length_nil,
            List.length_cons]; omega
        | false => simp only [childrenText, Bool.false_eq_true, if_false, List.length_append,
            List.length_nil, List.length_cons]; omega
  have listed := children node.children true
  have digits := decimal_u8_length node.id
  simp only [maxChildren] at short
  simp only [entryText, idText, List.length_append, List.length_singleton, treeSerialBuf]
  omega

/-- What `serial_buf` holds: a text of the sent tree, maybe some digits, and a terminator. -/
theorem ControlState.serialise_spec (self : LinkAddr) (s : ControlState) :
    ∃ text residue, Serialized treeSerialBuf 0 (sentTree self s.routingTree) text residue ∧
      Holds (s.serialise self).buf (text ++ residue ++ [0]) ∧
      (s.serialise self).pos = text.length ∧
      text.length + residue.length + 1 ≤ treeSerialBuf := by
  rw [ControlState.serialise, sentTree]
  split
  next empty =>
    let leaf : TreeNode := { id := self.u8_0, children := [] }
    have text : decimal self.u8_0.toNat ++ [ch ':', ch ';'] = entryText leaf := by
      simp [entryText, idText, childrenText, leaf]
    have short : (entryText leaf).length < treeSerialBuf := entryText_length_lt (by simp [leaf])
    have fits : (entryText leaf).take (treeSerialBuf - 1) = entryText leaf :=
      List.take_of_length_le (by omega)
    have nothing : Holds s.serialBuf ([] ++ []) := rfl
    simp only [text]
    refine ⟨entryText leaf ++ [], [], .whole (.done _), ?_, ?_, ?_⟩
    · rw [snprintf, if_neg (by decide), fits, List.append_nil, List.append_nil]
      exact nothing.store
    · rw [List.append_nil]
      exact u8_of_lt (by simp only [treeSerialBuf] at short; omega)
    · rw [List.append_nil]
      exact short
  next => exact serialize_spec (by decide) (by decide) _ _

/-- The packet that a node sends to its best parent, and what is read from it when `serial_buf` holds
    some text. -/
theorem sendRoutingTable_packet {packetbufSize : Nat} (big : 128 ≤ packetbufSize)
    {self bestParentId : LinkAddr} {s : ControlState} {frame : Frame}
    (sent : (sendRoutingTable packetbufSize self bestParentId s).2 = some frame)
    {text residue : List UInt8} (holds : Holds (s.serialise self).buf (text ++ residue ++ [0]))
    (pos : (s.serialise self).pos = text.length)
    (total : text.length + residue.length + 1 ≤ treeSerialBuf)
    (noNul : ∀ b ∈ text ++ residue, b ≠ 0) :
    (frame.src = self ∧ frame.dst = bestParentId ∧ bestParentId ≠ linkaddrNull) ∧
      ∃ payload m, recvUc frame.data = .control payload ∧ cstr payload = text ++ residue.take m := by
  rw [sendRoutingTable] at sent
  split at sent
  · cases sent
  next hasParent =>
    simp only at sent
    split at sent
    · cases sent
    · cases sent
      refine ⟨⟨rfl, rfl, hasParent⟩, ?_⟩
      -- The packet buffer and `recv_uc` cut at most the byte behind the text.
      let n := min (treeSerialBuf - 1) (min (packetbufSize - 1) (text.length + 1))
      have covers : text.length ≤ n := by
        simp only [n, treeSerialBuf] at total ⊢
        omega
      have data : packetbufCopyfrom packetbufSize
          (uControl :: bytes (s.serialise self).buf ((s.serialise self).pos + 1)) =
          uControl :: (text ++ residue ++ [0]).take (min (packetbufSize - 1) (text.length + 1)) := by
        have positive : 1 ≤ packetbufSize := by omega
        obtain ⟨size, rfl⟩ := Nat.exists_eq_add_of_le' positive
        rw [packetbufCopyfrom, List.take_succ_cons, pos, holds.bytes_eq_take (by simp), List.take_take]
        rfl
      refine ⟨(text ++ residue ++ [0]).take n ++ [0], n - text.length, ?_, ?_⟩
      · rw [data, recvUc]
        simp only [if_true, List.take_take, n]
      · rw [cstr_take noNul, List.take_append, List.take_of_length_le covers]

/-- The packet that a node sends to its best parent, and the text read from it. -/
theorem sendRoutingTable_payload {packetbufSize : Nat} (big : 128 ≤ packetbufSize)
    {self bestParentId : LinkAddr} {s : ControlState} {frame : Frame}
    (sent : (sendRoutingTable packetbufSize self bestParentId s).2 = some frame) :
    (frame.src = self ∧ frame.dst = bestParentId ∧ bestParentId ≠ linkaddrNull) ∧
      ∃ payload text residue m, recvUc frame.data = .control payload ∧
        Serialized treeSerialBuf 0 (sentTree self s.routingTree) text residue ∧
        cstr payload = text ++ residue.take m := by
  obtain ⟨text, residue, serialized, holds, pos, total⟩ := s.serialise_spec self
  obtain ⟨route, payload, m, received, read⟩ :=
    sendRoutingTable_packet big sent holds pos total serialized.ne_zero
  exact ⟨route, payload, text, residue, m, received, serialized, read⟩

/-! ### Receiving -/

/-- What a decoded control message of `sender` says: its first entry is the sender's own, and its edges
    are edges of the sender's table. -/
structure Told (sender : LinkAddr) (tree recvTree : RoutingTree) : Prop where
  first : headId recvTree = some sender.u8_0
  edges : ∀ p c, HasEdge recvTree p c → HasEdge tree p c

/-- A truncation starts as the table does, unless it is empty. -/
theorem Truncation.headId {tree out : RoutingTree} (truncation : Truncation tree out)
    (nonempty : out ≠ []) : headId out = headId tree := by
  cases truncation with
  | stop => exact absurd rfl nonempty
  | cut => rfl
  | whole => rfl

/-- The first entry always fits into the buffer. -/
theorem Serialized.first_whole {node : TreeNode} {rest : RoutingTree} {text residue : List UInt8}
    (serialized : Serialized treeSerialBuf 0 (node :: rest) text residue)
    (short : node.children.length ≤ maxChildren) : ∃ behind, text = entryText node ++ behind := by
  have first := entryText_length_lt short
  cases serialized with
  | stop _ long => omega
  | cut _ _ _ _ long => omega
  | whole => exact ⟨_, rfl⟩

theorem Serialized.decodes_nonempty {tree : RoutingTree} {text residue : List UInt8}
    (serialized : Serialized treeSerialBuf 0 tree text residue) (nonempty : tree ≠ [])
    (short : ∀ node ∈ tree, node.children.length ≤ maxChildren) (m : Nat) :
    deserialize (text ++ residue.take m) maxTreeNodes ≠ [] := by
  obtain ⟨node, rest, rfl⟩ := List.exists_cons_of_ne_nil nonempty
  obtain ⟨behind, rfl⟩ := serialized.first_whole (short node (by simp))
  rw [List.append_assoc, deserialize, maxTreeNodes,
    deserializeNodes_entry 19 _ (short node (by simp))]
  exact List.cons_ne_nil _ _

theorem sentTree_ne_nil (self : LinkAddr) (tree : RoutingTree) : sentTree self tree ≠ [] := by
  rw [sentTree]
  split
  next => simp
  next nonempty => exact List.ne_nil_of_length_pos (Nat.pos_of_ne_zero nonempty)

/-- A node with a parent always sends. -/
theorem sendRoutingTable_sends (packetbufSize : Nat) (self : LinkAddr) {bestParentId : LinkAddr}
    {s : ControlState} (fits : FitsArrays s.routingTree) (hasParent : bestParentId ≠ linkaddrNull) :
    ∃ frame, (sendRoutingTable packetbufSize self bestParentId s).2 = some frame := by
  obtain ⟨text, residue, serialized, -, pos, -⟩ := s.serialise_spec self
  obtain ⟨node, rest, split⟩ := List.exists_cons_of_ne_nil (sentTree_ne_nil self s.routingTree)
  have short := (sentTree_fits self fits).children
  rw [split] at serialized short
  obtain ⟨behind, rfl⟩ := serialized.first_whole (short node (by simp))
  have somePos : (s.serialise self).pos ≠ 0 := by
    rw [pos]
    simp [entryText, idText]
  rw [sendRoutingTable, if_neg hasParent]
  simp only [somePos, if_false]
  exact ⟨_, rfl⟩

/-- What the receiver of a control message reads, as long as `ctrl_payload` still holds it. -/
theorem sendRoutingTable_told {packetbufSize : Nat} (big : 128 ≤ packetbufSize)
    {self bestParentId : LinkAddr} {s : ControlState} {frame : Frame} (fits : FitsArrays s.routingTree)
    (own : ∀ id ∈ headId s.routingTree, id = self.u8_0)
    (sent : (sendRoutingTable packetbufSize self bestParentId s).2 = some frame) :
    ∃ payload, recvUc frame.data = .control payload ∧
      Told self s.routingTree (deserialize (cstr payload) maxTreeNodes) := by
  obtain ⟨-, payload, text, residue, m, received, serialized, read⟩ :=
    sendRoutingTable_payload big sent
  have sentFits := sentTree_fits self fits
  have truncation : Truncation (sentTree self s.routingTree)
      (deserialize (text ++ residue.take m) maxTreeNodes) :=
    serialized.decodes m sentFits.entries sentFits.children
  have head := headId_sentTree own
  refine ⟨payload, received, ?_, fun p c edge => ?_⟩
  · have decodes := serialized.decodes_nonempty (sentTree_ne_nil _ _) sentFits.children m
    rw [read, truncation.headId decodes, head]
  · rw [read] at edge
    exact hasEdge_sentTree.mp (truncation.hasEdge edge)

/-- A table whose text fits is read whole. -/
theorem sendRoutingTable_exact {packetbufSize : Nat} (big : 128 ≤ packetbufSize)
    {self bestParentId : LinkAddr} {s : ControlState} {frame : Frame} (fits : FitsArrays s.routingTree)
    (short : (fullText (sentTree self s.routingTree)).length < treeSerialBuf)
    (sent : (sendRoutingTable packetbufSize self bestParentId s).2 = some frame) :
    ∃ payload, recvUc frame.data = .control payload ∧
      deserialize (cstr payload) maxTreeNodes = sentTree self s.routingTree := by
  obtain ⟨-, payload, text, residue, m, received, serialized, read⟩ :=
    sendRoutingTable_payload big sent
  have sentFits := sentTree_fits self fits
  obtain ⟨rfl, rfl⟩ := serialized.eq_fullText (by omega)
  refine ⟨payload, received, ?_⟩
  rw [read, List.take_nil, List.append_nil]
  exact deserializeNodes_fullText sentFits.entries sentFits.children

end TreeRssi
