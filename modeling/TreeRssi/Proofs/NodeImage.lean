/-
Module: TreeRssi.Proofs.NodeImage
Layer: Proofs
Purpose: The memory of one node is that of the models on lists. For each process of the program one lemma
  says that it stays inside its arrays and does to the memory what the models do to the neighbour list, the
  control plane and the packets.
Imports: TreeRssi.Core.NodeImage, TreeRssi.Core.System, TreeRssi.Proofs.SendPath,
  TreeRssi.Proofs.NeighbourTable, TreeRssi.Proofs.PacketNode, TreeRssi.Proofs.LossAccounting,
  TreeRssi.Proofs.DataHop
Trusted boundary: none
Main exports: searchForwarderAt_some, routeHopAt_some, sendPacketAt_some, PacketMemory.Mirrors,
  PacketMemory.Mirrors.routeAll, NodeImage.Mirrors, NodeImage.Mirrors.recvUc,
  NodeImage.Mirrors.updateRoutingTable, NodeImage.Mirrors.sendRoutingTable,
  NodeImage.Mirrors.generatePktDst, NodeImage.Mirrors.routingUpstreamDownstream
Open obligations: none
-/
import TreeRssi.Core.NodeImage
import TreeRssi.Core.System
import TreeRssi.Proofs.SendPath
import TreeRssi.Proofs.NeighbourTable
import TreeRssi.Proofs.PacketNode
import TreeRssi.Proofs.LossAccounting
import TreeRssi.Proofs.DataHop

namespace TreeRssi

open CText Bounds BlockPool DepthFirst

/-! ### Search_forwarder -/

variable {tree : Nat → NodeCell} {n : Nat}

/-- The lookup loops find the entry that the model on lists finds. -/
theorem lookup_some (fits : FitsCells tree n) (id : UInt8) :
    ∃ found, firstIndex maxTreeNodes tree (·.id = id) n = some found ∧ (∀ i ∈ found, i < n) ∧
      entryOf (treeView tree n) id = found.map fun i => (tree i).view := by
  obtain ⟨found, searched, below, same⟩ := firstIndex_find tree fits.entries (·.id = id)
  refine ⟨found, searched, below, ?_⟩
  have view : treeView tree n = (contents tree n).map NodeCell.view := by simp [treeView, contents]
  have hit : (fun node : TreeNode => decide (node.id = id)) ∘ NodeCell.view =
      fun node : NodeCell => decide (node.id = id) := rfl
  rw [entryOf, view, List.find?_map, hit, same, Option.map_map]
  rfl

/-- The loop over the children asks them like the list. -/
theorem askChildrenAt_some {ask : UInt8 → Option (Option Bool)} {ask' : UInt8 → Option Bool}
    (asks : ∀ child, ask child = some (ask' child)) (children : Nat → UInt8) {turns j : Nat}
    (inside : j + turns ≤ maxChildren) :
    askChildrenAt ask children turns j = some (findFirst ask' (bytes (fun i => children (j + i)) turns)) := by
  induction turns generalizing j with
  | zero => rfl
  | succ turns ih =>
      have rest : (fun i => children (j + 1 + i)) = fun i => children (j + (i + 1)) := by
        funext i
        rw [Nat.add_right_comm, Nat.add_assoc]
      have split : bytes (fun i => children (j + i)) (turns + 1) =
          children j :: bytes (fun i => children (j + (i + 1))) turns := contents_cons _ _
      have later := ih (j := j + 1) (by omega)
      rw [rest] at later
      rw [askChildrenAt, readAt_some (by omega), Option.bind_some, asks, Option.bind_some, split, findFirst]
      cases ask' (children j) with
      | none => rfl
      | some answer =>
          cases answer with
          | true => rfl
          | false => exact later

theorem askEntry_some {ask : UInt8 → Option (Option Bool)} {ask' : UInt8 → Option Bool}
    (asks : ∀ child, ask child = some (ask' child)) {node : NodeCell}
    (fits : node.numChildren ≤ maxChildren) :
    askChildrenAt ask node.children node.numChildren 0 = some (findFirst ask' node.view.children) := by
  have inside : 0 + node.numChildren ≤ maxChildren := by omega
  have asked := askChildrenAt_some asks node.children inside
  simp only [Nat.zero_add] at asked
  exact asked

/-- `find_in_subtree` stays inside the arrays, and answers what the model on lists answers. -/
theorem findInSubtreeAt_some (fits : FitsCells tree n) (fuel : Nat) (rootId dstId : UInt8) :
    findInSubtreeAt tree n fuel rootId dstId =
      some (findInSubtree (treeView tree n) fuel rootId dstId) := by
  induction fuel generalizing rootId with
  | zero => rfl
  | succ fuel ih =>
      rw [findInSubtreeAt, findInSubtree]
      by_cases here : rootId = dstId
      · rw [if_pos here, if_pos here]
      · obtain ⟨found, searched, below, entry⟩ := lookup_some fits rootId
        rw [if_neg here, if_neg here, searched, Option.bind_some, entry]
        cases found with
        | none => rfl
        | some i =>
            have inside := below i rfl
            simp only [readAt_some (Nat.lt_of_lt_of_le inside fits.entries), Option.bind_some,
              Option.map_some]
            rw [askEntry_some ih (fits.children i inside)]
            rfl

/-- `Search_forwarder` stays inside the arrays, and answers what the model on lists answers. -/
theorem searchForwarderAt_some (fits : FitsCells tree n) (fuel : Nat) (myId dstId : UInt8) :
    searchForwarderAt fuel tree n myId dstId =
      some (searchForwarder fuel (treeView tree n) myId dstId) := by
  obtain ⟨found, searched, below, entry⟩ := lookup_some fits myId
  rw [searchForwarderAt, searchForwarder, searched, Option.bind_some, entry]
  cases found with
  | none => rfl
  | some i =>
      have inside := below i rfl
      simp only [readAt_some (Nat.lt_of_lt_of_le inside fits.entries), Option.bind_some, Option.map_some]
      rw [askEntry_some (fun child => findInSubtreeAt_some fits fuel child dstId) (fits.children i inside)]
      rfl

theorem routeHopAt_some (fits : FitsCells tree n) (fuel : Nat) (bestParentId : LinkAddr)
    (myId dstId : UInt8) :
    routeHopAt fuel tree n bestParentId myId dstId =
      some (routeHop fuel (treeView tree n) bestParentId myId dstId) := by
  rw [routeHopAt, routeHop, searchForwarderAt_some fits]
  by_cases here : dstId = myId
  · rw [if_pos here, if_pos here]
  · rw [if_neg here, if_neg here, Option.map_some]

/-! ### The packets -/

variable {cell : PktCell} {entry : PktEntry} {packetbufSize : Nat}

/-- The packet of a block is built inside `send_buf`, and is that of its entry. -/
theorem sendPacketAt_some (holds : cell.HoldsEntry entry) (packetbufSize : Nat) (self nextHop : LinkAddr)
    (s : DataState) :
    sendPacketAt packetbufSize self nextHop s.sendBuf cell =
      some ((sendPacket packetbufSize self nextHop s entry).1.sendBuf,
        (sendPacket packetbufSize self nextHop s entry).2) := by
  have length := packetText_length entry
  have digits := decimal_u8_length entry.dst
  have short : entry.msg.text.length < 32 := entry.msg.short
  have text : dstTag ++ decimal cell.dst.toNat ++ ch ':' :: entry.msg.text = packetText entry := by
    rw [holds.dst, packetText]
  have room : u8 (packetText entry).length + 2 ≤ sendBufSize := by
    rw [u8_of_lt (by omega)]
    simp only [sendBufSize]
    omega
  rw [sendPacketAt, holds.msg.stringFrom (Nat.zero_le _), Option.bind_some]
  simp only [List.drop_zero, text]
  rw [snprintfAt_some (by decide) (by decide), Option.bind_some, writeAt_some (by decide), Option.bind_some,
    readAll_some room]
  rfl

/-- A packet is shorter than its `uint16_t` length can tell. -/
theorem sendPacket_short (self nextHop : LinkAddr) (s : DataState) (entry : PktEntry) :
    (sendPacket packetbufSize self nextHop s entry).2.data.length < 65536 := by
  have plen : u8 (packetText entry).length < 256 := Nat.mod_lt _ (by decide)
  have cut : (sendPacket packetbufSize self nextHop s entry).2.data.length ≤
      u8 (packetText entry).length + 2 := by
    simp only [sendPacket, packetbufCopyfrom, bytes, List.length_take, List.length_map, List.length_range]
    exact Nat.min_le_right _ _
  omega

/-- The blocks of `pkt_mem` are those of the model, and the listed ones hold its entries. -/
structure PacketMemory.Mirrors (s : PacketMemory) (p : PacketNode) : Prop where
  mem : s.mem = p.mem
  pktList : s.pktList = p.pktList
  pending : s.pending = p.pending
  seqNum : s.seqNum = p.seqNum
  sendBuf : s.sendBuf = p.sendBuf
  owned : Owned p.mem p.pktList
  blocks : ∀ pe ∈ p.pktList, (s.block pe).HoldsEntry (p.block pe)

namespace PacketMemory.Mirrors

variable {s : PacketMemory} {p before : PacketNode} {pe : PktPtr} {mem : Pool pktMem}

/-- A block that is allocated and filled is queued with its entry. -/
theorem queue (mirrors : s.Mirrors p) (allocated : alloc s.mem = some (pe, mem))
    (holds : cell.HoldsEntry entry) (same : before.pending = p.pending) (posted : Bool) :
    (s.queue pe mem cell posted).Mirrors (before.post posted (p.enqueue entry)) := by
  rw [mirrors.mem] at allocated
  have fresh := mirrors.owned.fresh allocated
  have blocks : ∀ q ∈ push pe p.pktList, (Function.update s.block pe cell q).HoldsEntry
      (Function.update p.block pe entry q) := by
    intro q listed
    by_cases own : q = pe
    · subst own
      simpa using holds
    · rw [push_new fresh] at listed
      simp only [Function.update_of_ne own]
      exact mirrors.blocks q ((List.mem_cons.mp listed).resolve_left own)
  have list : push pe s.pktList = push pe p.pktList := by rw [mirrors.pktList]
  rw [PacketNode.enqueue, allocated]
  cases posted with
  | true =>
      exact ⟨rfl, list, congrArg (· + 1) mirrors.pending, mirrors.seqNum, mirrors.sendBuf,
        mirrors.owned.push allocated, blocks⟩
  | false =>
      exact ⟨rfl, list, mirrors.pending.trans same.symm, mirrors.seqNum, mirrors.sendBuf,
        mirrors.owned.push allocated, blocks⟩

/-- Without a block nothing is queued. -/
theorem full (mirrors : s.Mirrors p) (exhausted : alloc s.mem = none) (entry : PktEntry)
    (same : before.pending = p.pending) (posted : Bool) :
    s.Mirrors (before.post posted (p.enqueue entry)) := by
  rw [mirrors.mem] at exhausted
  rw [PacketNode.enqueue, exhausted]
  cases posted with
  | true => exact mirrors
  | false =>
      exact ⟨mirrors.mem, mirrors.pktList, mirrors.pending.trans same.symm, mirrors.seqNum, mirrors.sendBuf,
        mirrors.owned, mirrors.blocks⟩

/-- The printed number stays inside its block. -/
theorem seqText_holds (memory : Memory) {seq : Nat} (numbered : seq < 65536) (src : UInt8) :
    snprintfAt dataMsgSize memory 0 dataMsgSize (seqText seq src) =
        some (snprintf memory 0 dataMsgSize (seqText seq src)) ∧
      TextAt dataMsgSize (snprintf memory 0 dataMsgSize (seqText seq src))
        (strncpyMsg (seqText seq src)).text := by
  have length := seqText_length numbered src
  have short : (seqText seq src).length < dataMsgSize := by
    simp only [dataMsgSize]
    omega
  have whole : (seqText seq src).take (dataMsgSize - 1) = seqText seq src :=
    List.take_of_length_le (Nat.le_sub_one_of_lt short)
  have empty : Holds memory ([] ++ []) := rfl
  refine ⟨snprintfAt_some (by decide) (by decide), ?_⟩
  rw [strncpyMsg_text (seqText_ne_zero seq src) short, snprintf, if_neg (by decide), whole]
  exact ⟨empty.store, seqText_ne_zero seq src, short⟩

/-- A turn of `generate_pkt_dst` stays inside the blocks, and queues the packet of the model. -/
theorem generatePktDst (mirrors : s.Mirrors p) (me : LinkAddr) (posted : Bool) :
    ∃ s', s.generatePktDst me posted = some s' ∧ s'.Mirrors (p.post posted (p.generatePktDst me)) := by
  rw [PacketMemory.generatePktDst, PacketNode.generatePktDst]
  by_cases origin : me.u8_0 = origen
  · simp only [if_pos origin]
    have counted : PacketMemory.Mirrors { s with seqNum := u16 (s.seqNum + 1) }
        { p with seqNum := u16 (p.seqNum + 1) } :=
      ⟨mirrors.mem, mirrors.pktList, mirrors.pending, by rw [mirrors.seqNum], mirrors.sendBuf, mirrors.owned,
        mirrors.blocks⟩
    cases allocated : alloc s.mem with
    | none => exact ⟨_, rfl, counted.full allocated _ rfl posted⟩
    | some taken =>
        obtain ⟨pe, mem⟩ := taken
        have numbered : u16 (s.seqNum + 1) < 65536 := Nat.mod_lt _ (by decide)
        obtain ⟨printed, textAt⟩ := seqText_holds (s.block pe).msg numbered me.u8_0
        simp only [printed, textAt.stringFrom (Nat.zero_le _), Option.bind_some, Option.map_some]
        refine ⟨_, rfl, counted.queue allocated ⟨rfl, ?_⟩ rfl posted⟩
        rw [← mirrors.seqNum]
        exact textAt
  · rw [if_neg origin, if_neg origin]
    refine ⟨s, rfl, ?_⟩
    cases posted with
    | true => exact mirrors
    | false => exact mirrors

/-- What is done with a block that has been taken off the list. -/
theorem carryOut (mirrors : s.Mirrors p) (listed : pe ∈ p.pktList) (packetbufSize : Nat)
    (me bestParentId : LinkAddr) (decision : Decision) :
    ∃ s' sent, ({ s with pktList := s.pktList.erase pe } : PacketMemory).carryOut packetbufSize me pe
        decision = some (s', sent) ∧
      s'.Mirrors (({ p with pktList := p.pktList.erase pe } : PacketNode).carryOut packetbufSize me
        bestParentId pe decision) ∧
      (({ p with pktList := p.pktList.erase pe } : PacketNode).carryOut packetbufSize me bestParentId pe
        decision).log.sent = sent ++ p.log.sent ∧
      ∀ frame ∈ sent, frame.data.length < 65536 := by
  have holds := mirrors.blocks pe listed
  have list : s.pktList.erase pe = p.pktList.erase pe := by rw [mirrors.pktList]
  have freed : free s.mem pe = free p.mem pe := by rw [mirrors.mem]
  have blocks : ∀ q ∈ p.pktList.erase pe, (s.block q).HoldsEntry (p.block q) := fun q later =>
    mirrors.blocks q (List.mem_of_mem_erase later)
  have owned := mirrors.owned.remove pe
  cases decision with
  | deliver =>
      refine ⟨_, [], by rw [PacketMemory.carryOut, holds.msg.stringFrom (Nat.zero_le _), Option.map_some],
        ?_, rfl, by simp⟩
      exact ⟨freed, list, mirrors.pending, mirrors.seqNum, mirrors.sendBuf, owned, blocks⟩
  | drop =>
      exact ⟨_, [], rfl, ⟨freed, list, mirrors.pending, mirrors.seqNum, mirrors.sendBuf, owned, blocks⟩, rfl,
        by simp⟩
  | forward nextHop =>
      have sent := sendPacketAt_some holds packetbufSize me nextHop
        ({ p with pktList := p.pktList.erase pe } : PacketNode).view
      rw [PacketMemory.carryOut, mirrors.sendBuf]
      simp only [PacketNode.view] at sent
      simp only [sent, Option.map_some]
      refine ⟨_, _, rfl, ⟨freed, list, mirrors.pending, mirrors.seqNum, rfl, owned, blocks⟩, rfl, ?_⟩
      intro frame member
      rw [List.mem_singleton.mp member]
      exact sendPacket_short me nextHop _ _

/-- The packets that the loop has sent, the latest first, and what it leaves. -/
structure Routed (p : PacketNode) (earlier : List Frame) (done : PacketMemory × List Frame)
    (p' : PacketNode) : Prop where
  mirrors : done.1.Mirrors p'
  sent : p'.log.sent = done.2 ++ earlier
  short : ∀ frame ∈ done.2, frame.data.length < 65536
  stats : p'.pktStatsTable = p.pktStatsTable

/-- The statistics are those of before. -/
theorem Routed.of_stats {p' : PacketNode} {earlier : List Frame} {r : Option (PacketMemory × List Frame)}
    {r' : Option PacketNode} (stats : p'.pktStatsTable = p.pktStatsTable)
    (same : Option.Rel (Routed p' earlier) r r') : Option.Rel (Routed p earlier) r r' := by
  cases same with
  | none => exact .none
  | some done => exact .some ⟨done.mirrors, done.sent, done.short, done.stats.trans stats⟩

theorem carryOut_stats (p : PacketNode) (packetbufSize : Nat) (me bestParentId : LinkAddr) (pe : PktPtr)
    (decision : Decision) :
    (p.carryOut packetbufSize me bestParentId pe decision).pktStatsTable = p.pktStatsTable := by
  cases decision <;> rfl

/-- The loop stays inside the blocks and the arrays, and does to the packets what the model does. -/
theorem routeAll (mirrors : s.Mirrors p) (fits : FitsCells tree n) (packetbufSize : Nat)
    (me bestParentId : LinkAddr) (fuel turns : Nat) {sent earlier : List Frame}
    (logged : p.log.sent = sent ++ earlier) (short : ∀ frame ∈ sent, frame.data.length < 65536) :
    ∃ r, PacketMemory.routeAll packetbufSize me tree n bestParentId fuel turns s sent = some r ∧
      Option.Rel (Routed p earlier) r
        (PacketNode.routeAll packetbufSize me (treeView tree n) bestParentId fuel turns p) := by
  induction turns generalizing s p sent with
  | zero => exact ⟨none, rfl, .none⟩
  | succ turns ih =>
      rw [PacketMemory.routeAll, PacketNode.routeAll]
      cases list : p.pktList with
      | nil =>
          have list' : s.pktList = [] := mirrors.pktList.trans list
          refine ⟨some (s, sent), by simp only [list'], ?_⟩
          exact .some ⟨mirrors, logged, short, rfl⟩
      | cons pe rest =>
          have list' : s.pktList = pe :: rest := mirrors.pktList.trans list
          have listed : pe ∈ p.pktList := by simp [list]
          have dst : (s.block pe).dst = (p.block pe).dst := (mirrors.blocks pe listed).dst
          simp only [list', dst, routeHopAt_some fits, Option.bind_some]
          cases decided : routeHop fuel (treeView tree n) bestParentId me.u8_0 (p.block pe).dst with
          | none => exact ⟨none, rfl, .none⟩
          | some decision =>
              obtain ⟨s', more, carried, mirrors', logged', short'⟩ :=
                mirrors.carryOut listed packetbufSize me bestParentId decision
              have stats := carryOut_stats { p with pktList := p.pktList.erase pe } packetbufSize me
                bestParentId pe decision
              simp only [list, list'] at carried mirrors' logged' stats
              rw [logged, ← List.append_assoc] at logged'
              obtain ⟨r, routed, same⟩ := ih mirrors' logged' fun frame member =>
                (List.mem_append.mp member).elim (short' frame) (short frame)
              simp only [carried, Option.bind_some]
              exact ⟨r, routed, Routed.of_stats stats same⟩

end PacketMemory.Mirrors

/-! ### The node -/

/-- The memory of a node is that of the models on lists: its neighbours, its control plane and its packets. -/
structure NodeImage.Mirrors (s : NodeImage) (parents : ParentState) (control : ControlState)
    (p : PacketNode) : Prop where
  held : Held s.neighbours
  neighbours : s.neighbours.view = parents
  sound : MemorySound s.memory
  memory : s.memory.Mirrors control p.view
  serialBuf : s.serialBuf = control.serialBuf
  packets : s.packets.Mirrors p

variable {raw : List UInt8} {source : LinkAddr} {memory memory' : NodeMemory}

/-- What `recv_uc` does with the block: it is filled with the entry of a data packet, or not touched. -/
theorem recvUcAt_filled {me : LinkAddr} {stack : Memory} {pe filled : Option PktCell} {posted : Bool}
    (sound : MemorySound memory) (short : raw.length < 65536)
    (received : recvUcAt atoi me source raw stack pe posted memory = some (memory', filled)) :
    (filled = none ∧ (pe = none ∨ ∀ msg, TreeRssi.recvUc raw ≠ .data msg)) ∨
      ∃ block cell msg, pe = some block ∧ filled = some cell ∧ TreeRssi.recvUc raw = .data msg ∧
        cell.HoldsEntry (packetEntry source (cstr msg)) := by
  cases raw with
  | nil =>
      cases received
      exact .inl ⟨rfl, .inr (by simp [TreeRssi.recvUc])⟩
  | cons msgType payload =>
      have length : u16 (msgType :: payload).length = payload.length + 1 := Nat.mod_eq_of_lt short
      have byte : readAt (msgType :: payload).length ((msgType :: payload).getD · 0) 0 = some msgType :=
        readAt_some (Nat.succ_pos _)
      have there : payload.length < (msgType :: payload).length := Nat.lt_succ_self _
      rw [recvUcAt] at received
      simp only [length, Nat.add_sub_cancel, byte, Option.bind_some, Nat.succ_ne_zero, if_false] at received
      by_cases isControl : msgType = uControl
      · rw [if_pos isControl] at received
        obtain ⟨serial, -, received⟩ := Option.bind_eq_some_iff.mp received
        obtain ⟨stored, -, same⟩ := Option.map_eq_some_iff.mp received
        refine .inl ⟨(congrArg Prod.snd same).symm, .inr fun msg => ?_⟩
        rw [TreeRssi.recvUc, if_pos isControl]
        exact Received.noConfusion
      · by_cases isData : msgType = uData
        · rw [if_neg isControl, if_pos isData] at received
          obtain ⟨msg, k, counted, copied, textAt, packet, -⟩ :=
            recvDataAt_some atoi stack me source there sound
          simp only [copied, packet, Option.bind_some] at received
          cases pe with
          | none =>
              cases received
              exact .inl ⟨rfl, .inl rfl⟩
          | some block =>
              obtain ⟨cell, entered, holds⟩ := packetEntryAt_some atoi textAt source block
              simp only [entered, Option.map_some] at received
              cases received
              refine .inr ⟨block, cell, _, rfl, rfl, ?_, holds rfl⟩
              rw [TreeRssi.recvUc, if_neg isControl, if_pos isData, List.tail_cons, List.take_length]
        · rw [if_neg isControl, if_neg isData] at received
          refine .inl ⟨(congrArg Prod.snd (Option.some.inj received)).symm, .inr fun msg => ?_⟩
          rw [TreeRssi.recvUc, if_neg isControl, if_neg isData]
          exact Received.noConfusion

theorem PacketNode.post_view (before after : PacketNode) (posted : Bool) :
    (before.post posted after).view = after.view := by
  cases posted <;> rfl

/-- The packets after a reception that fills no block. -/
theorem PacketMemory.Mirrors.refused {s : PacketMemory} {p : PacketNode} (mirrors : s.Mirrors p)
    (reason : alloc s.mem = none ∨ ∀ msg, TreeRssi.recvUc raw ≠ .data msg) (me : LinkAddr) (posted : Bool) :
    s.Mirrors (p.post posted (p.receive me source raw)) := by
  rw [PacketNode.receive]
  cases received : TreeRssi.recvUc raw with
  | nothing =>
      cases posted with
      | true => exact mirrors
      | false => exact mirrors
  | control payload =>
      cases posted with
      | true => exact mirrors
      | false => exact mirrors
  | data msg =>
      have exhausted := reason.resolve_right fun other => other msg received
      by_cases sink : me.u8_0 = 1
      · simp only [if_pos sink]
        refine PacketMemory.Mirrors.full ?_ exhausted _ rfl posted
        exact ⟨mirrors.mem, mirrors.pktList, mirrors.pending, mirrors.seqNum, mirrors.sendBuf, mirrors.owned,
          mirrors.blocks⟩
      · simp only [if_neg sink]
        exact mirrors.full exhausted _ rfl posted

/-- The packets after a reception that fills a block. -/
theorem PacketMemory.Mirrors.received {s : PacketMemory} {p : PacketNode} {pe : PktPtr} {mem : Pool pktMem}
    {msg : List UInt8} (mirrors : s.Mirrors p) (allocated : alloc s.mem = some (pe, mem))
    (data : TreeRssi.recvUc raw = .data msg) (holds : cell.HoldsEntry (packetEntry source (cstr msg)))
    (me : LinkAddr) (posted : Bool) :
    (s.queue pe mem cell posted).Mirrors (p.post posted (p.receive me source raw)) := by
  rw [PacketNode.receive, data]
  by_cases sink : me.u8_0 = 1
  · simp only [if_pos sink]
    refine PacketMemory.Mirrors.queue ?_ allocated holds rfl posted
    exact ⟨mirrors.mem, mirrors.pktList, mirrors.pending, mirrors.seqNum, mirrors.sendBuf, mirrors.owned,
      mirrors.blocks⟩
  · simp only [if_neg sink]
    exact mirrors.queue allocated holds rfl posted

namespace NodeImage.Mirrors

variable {s : NodeImage} {parents : ParentState} {control : ControlState} {p : PacketNode}

/-- `recv_uc` stays inside the arrays, and does to the memory what the models do. -/
theorem recvUc (mirrors : s.Mirrors parents control p) (short : raw.length < 65536) (me source : LinkAddr)
    (stack : Memory) (posted : Bool) :
    ∃ s', s.recvUc me source raw stack posted = some s' ∧
      s'.Mirrors parents (control.receive raw posted) (p.post posted (p.receive me source raw)) := by
  obtain ⟨memory, filled, received, sound, same⟩ := recvUcAt_some atoi stack me source mirrors.sound raw
    ((alloc s.packets.mem).map fun a => s.packets.block a.1) posted
  have view : (p.post posted (p.receive me source raw)).view = p.view.receive me source raw := by
    rw [PacketNode.post_view, receive_view mirrors.packets.owned]
  have mirrors' : memory.Mirrors (control.receive raw posted)
      (p.post posted (p.receive me source raw)).view := by
    rw [view]
    exact same rfl short control p.view mirrors.memory
  have serialBuf : s.serialBuf = (control.receive raw posted).serialBuf := by
    rw [mirrors.serialBuf, ControlState.receive]
    split <;> rfl
  rw [NodeImage.recvUc]
  simp only [received, Option.map_some]
  rcases recvUcAt_filled mirrors.sound short received with
    ⟨rfl, reason⟩ | ⟨block, cell, msg, obtained, rfl, data, holds⟩
  · have untouched : s.packets.Mirrors (p.post posted (p.receive me source raw)) :=
      mirrors.packets.refused (reason.imp_left Option.map_eq_none_iff.mp) me posted
    have none : s.queued memory posted (alloc s.packets.mem) none = { s with memory := memory } := by
      cases alloc s.packets.mem <;> rfl
    exact ⟨_, congrArg some none, mirrors.held, mirrors.neighbours, sound, mirrors', serialBuf, untouched⟩
  · obtain ⟨⟨pe, mem⟩, allocated, -⟩ := Option.map_eq_some_iff.mp obtained
    simp only [allocated]
    exact ⟨_, rfl, mirrors.held, mirrors.neighbours, sound, mirrors', serialBuf,
      mirrors.packets.received allocated data holds me posted⟩

/-- The delivery of an event stays inside the arrays, and merges what the model merges. -/
theorem updateRoutingTable (mirrors : s.Mirrors parents control p) (me : LinkAddr) :
    ∃ r, s.updateRoutingTable me = some r ∧
      Option.Rel (fun s' control' => s'.Mirrors parents control' p) r (control.deliver me) := by
  rw [NodeImage.updateRoutingTable, ControlState.deliver, ← mirrors.memory.pending]
  cases waiting : s.memory.pending with
  | zero => exact ⟨none, rfl, .none⟩
  | succ pending =>
      have sound : MemorySound { s.memory with pending := pending } :=
        ⟨mirrors.sound.table, mirrors.sound.stats, mirrors.sound.payload⟩
      have taken : NodeMemory.Mirrors { s.memory with pending := pending }
          { control with pending := pending } p.view :=
        ⟨mirrors.memory.table, mirrors.memory.payload, rfl, mirrors.memory.stats⟩
      obtain ⟨memory, updated, sound', merged⟩ := updateRoutingTableAt_sound atoi me sound
      simp only [updated, Option.map_some]
      exact ⟨_, rfl, .some ⟨mirrors.held, mirrors.neighbours, sound', merged rfl _ _ taken,
        mirrors.serialBuf, mirrors.packets⟩⟩

/-- A turn of `send_routing_table` stays inside its buffers, and sends what the model sends. -/
theorem sendRoutingTable (mirrors : s.Mirrors parents control p) (packetbufSize : Nat) (me : LinkAddr) :
    ∃ s', s.sendRoutingTable packetbufSize me =
        some (s', (TreeRssi.sendRoutingTable packetbufSize me parents.bestParentId control).2) ∧
      s'.Mirrors parents (TreeRssi.sendRoutingTable packetbufSize me parents.bestParentId control).1 p := by
  have best : s.neighbours.bestParentId = parents.bestParentId := by
    rw [← mirrors.neighbours]
    rfl
  let image : SendMemory := ⟨s.memory.routingTree, s.memory.treeNNodes, s.serialBuf, s.sendBuf⟩
  have fits : FitsCells image.routingTree image.treeNNodes := mirrors.sound.table
  obtain ⟨after, sent, -, -, serialBuf⟩ := sendRoutingTableAt_some fits packetbufSize me
    parents.bestParentId mirrors.memory.table mirrors.serialBuf
  obtain ⟨table, payload⟩ := sendRoutingTable_keeps packetbufSize me parents.bestParentId control
  have pending : (TreeRssi.sendRoutingTable packetbufSize me parents.bestParentId control).1.pending =
      control.pending := by
    rw [TreeRssi.sendRoutingTable]
    split
    · rfl
    · simp only
      split <;> rfl
  rw [NodeImage.sendRoutingTable, best, sent, Option.map_some]
  refine ⟨_, rfl, mirrors.held, mirrors.neighbours, mirrors.sound, ?_, serialBuf, mirrors.packets⟩
  exact ⟨mirrors.memory.table.trans table.symm, mirrors.memory.payload.trans (congrArg cstr payload.symm),
    mirrors.memory.pending.trans pending.symm, mirrors.memory.stats⟩

/-- A turn of `generate_pkt_dst`. -/
theorem generatePktDst (mirrors : s.Mirrors parents control p) (me : LinkAddr) (posted : Bool) :
    ∃ s', s.generatePktDst me posted = some s' ∧
      s'.Mirrors parents control (p.post posted (p.generatePktDst me)) := by
  obtain ⟨packets, generated, mirrors'⟩ := mirrors.packets.generatePktDst me posted
  have stats : (p.post posted (p.generatePktDst me)).view.pktStatsTable = p.view.pktStatsTable := by
    rw [PacketNode.post_view, generatePktDst_view mirrors.packets.owned, DataState.generatePktDst]
    split
    · simp only
      split <;> rfl
    · rfl
  rw [NodeImage.generatePktDst, generated, Option.map_some]
  exact ⟨_, rfl, mirrors.held, mirrors.neighbours, mirrors.sound,
    ⟨mirrors.memory.table, mirrors.memory.payload, mirrors.memory.pending,
      mirrors.memory.stats.trans stats.symm⟩,
    mirrors.serialBuf, mirrors'⟩

/-- The delivery of an `ev_route_pkt` event. -/
theorem routingUpstreamDownstream (mirrors : s.Mirrors parents control p) (packetbufSize : Nat)
    (me : LinkAddr) (fuel : Nat) :
    ∃ r, s.routingUpstreamDownstream packetbufSize me fuel = some r ∧
      Option.Rel (fun done p' => done.1.Mirrors parents control p' ∧ p'.log.sent = done.2 ++ p.log.sent ∧
          ∀ frame ∈ done.2, frame.data.length < 65536) r
        (p.routingUpstreamDownstream packetbufSize me fuel control.routingTree parents.bestParentId) := by
  have best : s.neighbours.bestParentId = parents.bestParentId := by
    rw [← mirrors.neighbours]
    rfl
  rw [NodeImage.routingUpstreamDownstream, PacketNode.routingUpstreamDownstream, ← mirrors.packets.pending,
    best]
  cases waiting : s.packets.pending with
  | zero => exact ⟨none, rfl, .none⟩
  | succ pending =>
      have taken : PacketMemory.Mirrors { s.packets with pending := pending } { p with pending := pending } :=
        ⟨mirrors.packets.mem, mirrors.packets.pktList, rfl, mirrors.packets.seqNum, mirrors.packets.sendBuf,
          mirrors.packets.owned, mirrors.packets.blocks⟩
      have logged : ({ p with pending := pending } : PacketNode).log.sent = [] ++ p.log.sent := rfl
      obtain ⟨r, routed, same⟩ := taken.routeAll mirrors.sound.table packetbufSize me parents.bestParentId
        fuel fuel logged (by simp)
      rw [mirrors.memory.table] at same
      simp only [routed, Option.map_some]
      refine ⟨_, rfl, ?_⟩
      generalize PacketNode.routeAll packetbufSize me control.routingTree parents.bestParentId fuel fuel
        { p with pending := pending } = r' at same
      cases same with
      | none => exact .none
      | some done =>
          exact .some ⟨⟨mirrors.held, mirrors.neighbours, mirrors.sound,
            ⟨mirrors.memory.table, mirrors.memory.payload, mirrors.memory.pending,
              mirrors.memory.stats.trans done.stats.symm⟩, mirrors.serialBuf, done.mirrors⟩,
            done.sent, done.short⟩

/-- After boot. -/
theorem boot (me : LinkAddr) :
    (NodeImage.boot me).Mirrors (selectPreferedParent me) (.boot me) .boot where
  held := .boot me
  neighbours := rfl
  sound := .boot me
  memory := by
    refine ⟨?_, rfl, rfl, rfl⟩
    simp only [NodeImage.boot, NodeMemory.boot, ControlState.boot]
    by_cases sink : me.u8_0 = 1
    · simp [sink, treeView, contents, NodeCell.view, bytes]
    · simp [sink, treeView, contents]
  serialBuf := rfl
  packets := ⟨rfl, rfl, rfl, rfl, rfl, owned_empty, by simp [PacketNode.boot]⟩

end NodeImage.Mirrors

end TreeRssi
