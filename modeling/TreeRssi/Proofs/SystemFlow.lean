/-
Module: TreeRssi.Proofs.SystemFlow
Layer: Proofs
Purpose: The data plane of one node as a flow of tokens. The tokens are the entries; a turn of the loop
  of `routing_upstream_downstream` serves one, and an entry that is offered to a node is one token more
  or, without a free block, changes nothing. An entry of the origin fits the message buffer, so a packet
  is read back as the entry it was made of.
Imports: TreeRssi.Core.System, TreeRssi.Lib.TokenFlow, TreeRssi.Proofs.MessageIntegrity,
  TreeRssi.Proofs.PacketNode
Trusted boundary: none
Main exports: Generated, DataFrame, Generated.read, nodeFlow, Served, routeAll_flow, Offered,
  receive_offered, generatePktDst_offered, Offered.flow
Open obligations: none
-/
import TreeRssi.Core.System
import TreeRssi.Lib.TokenFlow
import TreeRssi.Proofs.MessageIntegrity
import TreeRssi.Proofs.PacketNode

namespace TreeRssi

open CText LabelledRun TokenFlow

/-! ### Entries and packets -/

/-- An entry that `generate_pkt_dst` makes at the origin. -/
def Generated (pe : PktEntry) : Prop := ∃ seq, seq < 65536 ∧ pe = numberedEntry seq origen destino

theorem Generated.dst {pe : PktEntry} (generated : Generated pe) : pe.dst = destino := by
  obtain ⟨seq, -, rfl⟩ := generated
  rfl

/-- A packet that carries such an entry. -/
def DataFrame (frame : Frame) : Prop :=
  ∃ pe, Generated pe ∧ frame.data = uData :: (packetText pe ++ [0])

variable {packetbufSize : Nat} {me : LinkAddr}

/-- A packet is read back as the entry it was made of. -/
theorem Generated.read {pe : PktEntry} (generated : Generated pe) {frame : Frame}
    (bytes : frame.data = uData :: (packetText pe ++ [0])) : ∃ msg, recvUc frame.data = .data msg ∧
      packetEntry frame.src (cstr msg) = pe ∧ frameToken frame = some (frame.dst, pe) := by
  obtain ⟨msg, received, read⟩ := recvUc_data (packetText_ne_zero pe)
  have entry : packetEntry frame.src (cstr msg) = pe := by
    obtain ⟨seq, numbered, rfl⟩ := generated
    rw [read, packetText_take, packetEntry_text, numberedEntry_arrives numbered]
  refine ⟨msg, by rw [bytes, received], entry, ?_⟩
  simp only [frameToken, bytes, received, entry]

/-- The tokens of packets in the air. -/
def airTokens (air : List Frame) : Multiset (LinkAddr × PktEntry) := (air.filterMap frameToken : List _)

theorem airTokens_append (front back : List Frame) :
    airTokens (front ++ back) = airTokens front + airTokens back := by
  rw [airTokens, List.filterMap_append, ← Multiset.coe_add]
  rfl

/-- Taking a packet from the air takes its token. -/
theorem airTokens_erase {air : List Frame} {frame : Frame} (inAir : frame ∈ air) {pe : PktEntry}
    (token : frameToken frame = some (frame.dst, pe)) :
    airTokens air = (frame.dst, pe) ::ₘ airTokens (air.erase frame) := by
  have front := (List.perm_cons_erase inAir).filterMap frameToken
  rw [List.filterMap_cons_some token] at front
  rw [airTokens, airTokens, Multiset.cons_coe]
  exact Multiset.coe_eq_coe.mpr front

/-! ### The flow of one node -/

/-- The fate that a decision means. -/
def Decision.fate : Decision → Fate LinkAddr
  | .deliver => .deliver
  | .drop => .drop
  | .forward nextHop => .forward nextHop

/-- The tokens of one node: what is queued, and what became of the others. -/
def nodeFlow (me : LinkAddr) (p : PacketNode) : Flow LinkAddr PktEntry where
  born := 0
  queued := (p.view.pktList.map fun pe => (me, pe) : List _)
  air := 0
  delivered := (p.log.consumed.filterMap fun c =>
    if c.decision = .deliver then some (me, c.packet.entry) else none : List _)
  dropped := (p.log.consumed.filterMap fun c =>
    if c.decision = .drop then some (me, c.packet.entry) else none : List _)
  lost := 0
  moves := (p.log.consumed.filterMap fun c => c.nextHop.map fun next => (me, next, c.packet.entry) : List _)

/-- The step serves a token of a node as `routing_upstream_downstream` decides. -/
def Served (fuel : Nat) (tree : RoutingTree) (bestParentId me : LinkAddr)
    (action : FlowAction LinkAddr PktEntry) : Prop :=
  ∃ pe decision, Generated pe ∧ action = .serve me pe decision.fate ∧
    routeHop fuel tree bestParentId me.u8_0 pe.dst = some decision

/-- The tokens that a consumed packet puts on the air. -/
def Consumption.sentTokens (c : Consumption) : Multiset (LinkAddr × PktEntry) :=
  (c.nextHop.toList.map fun next => (next, c.packet.entry) : List _)

/-- One turn of the loop serves the token at the head of the list. -/
theorem CarriedOut.flow {s s' : PacketNode} {pe : PktPtr} {rest : List PktPtr} {bestParentId : LinkAddr}
    {decision : Decision} (head : s.pktList = pe :: rest)
    (out : CarriedOut { s with pktList := rest } pe ⟨s.packet pe, bestParentId, decision⟩ s') :
    (nodeFlow me s).step (.serve me (s.block pe) decision.fate) =
      some (nodeFlow me s' + .ofAir (Consumption.sentTokens ⟨s.packet pe, bestParentId, decision⟩)) := by
  have there : (me, s.block pe) ∈ (nodeFlow me s).queued := by simp [nodeFlow, PacketNode.view, head]
  have list : s'.pktList = rest := out.pktList
  have block : s'.block = s.block := funext fun q =>
    congrArg Packet.entry (congrFun out.packet q)
  have consumed : s'.log.consumed = ⟨s.packet pe, bestParentId, decision⟩ :: s.log.consumed := out.consumed
  rw [Flow.step, if_pos there]
  congr 1
  cases decision with
  | deliver | drop | forward =>
      ext1 <;> simp [nodeFlow, PacketNode.view, Flow.meet, Decision.fate, Flow.ofAir, Flow.empty,
        Consumption.sentTokens, Consumption.nextHop, PacketNode.packet, list, block, consumed, head]

/-- The packets of one turn of the loop carry its tokens. -/
theorem carryOut_sent (big : 128 ≤ packetbufSize) (me bestParentId : LinkAddr) (s : PacketNode) {pe : PktPtr}
    (generated : Generated (s.block pe)) (decision : Decision) : ∃ frames,
      (s.carryOut packetbufSize me bestParentId pe decision).log.sent = frames ++ s.log.sent ∧
      (∀ frame ∈ frames, DataFrame frame) ∧
      airTokens frames = Consumption.sentTokens ⟨s.packet pe, bestParentId, decision⟩ := by
  cases decision with
  | deliver => exact ⟨[], rfl, by simp, rfl⟩
  | drop => exact ⟨[], rfl, by simp, rfl⟩
  | forward nextHop =>
      let frame := (sendPacket packetbufSize me nextHop s.view (s.block pe)).2
      have bytes : frame.data = uData :: (packetText (s.block pe) ++ [0]) :=
        sendPacket_data big me nextHop s.view _
      have data : DataFrame frame := ⟨s.block pe, generated, bytes⟩
      obtain ⟨msg, -, -, token⟩ := generated.read bytes
      refine ⟨[frame], rfl, by simpa using data, ?_⟩
      simp only [airTokens, List.filterMap_cons, token, List.filterMap_nil]
      rfl

/-- The loop serves the tokens of its node one after the other. -/
theorem routeAll_flow (big : 128 ≤ packetbufSize) {s s' : PacketNode} {fuel turns : Nat}
    {tree : RoutingTree} {bestParentId : LinkAddr}
    (generated : ∀ pe ∈ s.pktList, Generated (s.block pe))
    (routed : s.routeAll packetbufSize me tree bestParentId fuel turns = some s') :
    ∃ frames segment, s'.log.sent = frames ++ s.log.sent ∧ (∀ frame ∈ frames, DataFrame frame) ∧
      Run Flow.step (fun _ => Served fuel tree bestParentId me) (nodeFlow me s) segment
        (nodeFlow me s' + .ofAir (airTokens frames)) := by
  induction turns generalizing s with
  | zero => cases routed
  | succ turns ih =>
      rw [PacketNode.routeAll] at routed
      cases head : s.pktList with
      | nil =>
          rw [head] at routed
          cases routed
          exact ⟨[], [], rfl, by simp, by simpa [airTokens] using Run.nil⟩
      | cons pe rest =>
          rw [head] at routed generated
          obtain ⟨first, later⟩ := List.forall_mem_cons.mp generated
          obtain ⟨decision, decided, routed⟩ := Option.bind_eq_some_iff.mp routed
          rw [List.erase_cons_head] at routed
          have out := carryOut_carriedOut packetbufSize me bestParentId { s with pktList := rest } pe decision
          obtain ⟨now, sentNow, dataNow, tokens⟩ :=
            carryOut_sent big me bestParentId { s with pktList := rest } first decision
          generalize PacketNode.carryOut packetbufSize me bestParentId { s with pktList := rest } pe
            decision = s₁ at routed out sentNow
          have list : s₁.pktList = rest := out.pktList
          have block : s₁.block = s.block := funext fun q => congrArg Packet.entry (congrFun out.packet q)
          obtain ⟨frames, segment, sent, data, run⟩ := ih (by rw [list, block]; exact later) routed
          -- The packets of the first turn travel beside the other turns.
          obtain ⟨segment', beside⟩ := Flow.run_frame run (.ofAir (airTokens now))
          have serve : (nodeFlow me s).step (.serve me (s.block pe) decision.fate) =
              some (nodeFlow me s₁ + .ofAir (airTokens now)) := by
            rw [tokens]
            exact out.flow head
          have start : Run Flow.step (fun _ => Served fuel tree bestParentId me) (nodeFlow me s) []
            (nodeFlow me s) := .nil
          have one := start.snoc ⟨_, decision, first, rfl, decided⟩ serve
          have whole := one.append beside
          rw [add_assoc, ← Flow.ofAir_add, ← airTokens_append] at whole
          exact ⟨frames ++ now, _, by rw [sent, sentNow, List.append_assoc],
            fun frame member => (List.mem_append.mp member).elim (data frame) (dataNow frame), whole⟩

/-- The loop touches no counter, no pending event and no statistics. -/
theorem routeAll_keeps {s s' : PacketNode} {fuel turns : Nat} {tree : RoutingTree} {bestParentId : LinkAddr}
    (routed : s.routeAll packetbufSize me tree bestParentId fuel turns = some s') :
    s'.seqNum = s.seqNum ∧ s'.pending = s.pending ∧ s'.pktStatsTable = s.pktStatsTable := by
  induction turns generalizing s with
  | zero => cases routed
  | succ turns ih =>
      rw [PacketNode.routeAll] at routed
      cases head : s.pktList with
      | nil =>
          rw [head] at routed
          cases routed
          exact ⟨rfl, rfl, rfl⟩
      | cons pe rest =>
          rw [head] at routed
          obtain ⟨decision, -, routed⟩ := Option.bind_eq_some_iff.mp routed
          obtain ⟨seqNum, pending, stats⟩ := ih routed
          rw [seqNum, pending, stats]
          cases decision <;> exact ⟨rfl, rfl, rfl⟩

/-! ### An entry is offered to a node -/

/-- The outcomes of an entry for which a node asks for a block. -/
inductive Offered (p : PacketNode) (pe : PktEntry) (p' : PacketNode) : Prop where
  | refused (full : pktMem ≤ p.pktList.length) (list : p'.view.pktList = p.view.pktList)
      (log : p'.log = p.log)
  | queued (room : p.pktList.length < pktMem) (list : p'.view.pktList = pe :: p.view.pktList)
      (obtained : p'.log.obtained = ⟨p.log.obtained.length, pe⟩ :: p.log.obtained)
      (consumed : p'.log.consumed = p.log.consumed) (sent : p'.log.sent = p.log.sent)

variable {p p' : PacketNode} {pe : PktEntry}

theorem enqueue_offered (owned : BlockPool.Owned p.mem p.pktList) (pe : PktEntry) :
    Offered p pe (p.enqueue pe) := by
  rcases enqueue_cases owned pe with ⟨full, same⟩ | queued
  · rw [same]
    exact .refused full rfl rfl
  · have entries := congrArg (List.map Packet.entry) queued.queued
    simp only [List.map_map, List.map_cons] at entries
    have bound := queued.owned.length_le
    have length := congrArg List.length queued.queued
    simp only [List.length_map, List.length_cons] at length
    exact .queued (by omega) entries queued.obtained queued.consumed queued.sent

/-- A data packet offers its entry to the receiver. -/
theorem receive_offered (owned : BlockPool.Owned p.mem p.pktList) (me source : LinkAddr)
    {raw msg : List UInt8} (received : recvUc raw = .data msg) :
    Offered p (packetEntry source (cstr msg)) (p.receive me source raw) := by
  rw [PacketNode.receive, received]
  dsimp only
  split
  next sink =>
    have offered := enqueue_offered (p := { p with
      pktStatsTable := updateStats (parseStats (cstr msg)).2 (parseStats (cstr msg)).1 p.pktStatsTable })
      owned (packetEntry source (cstr msg))
    cases offered with
    | refused full list log => exact .refused full list log
    | queued room list obtained consumed sent => exact .queued room list obtained consumed sent
  next => exact enqueue_offered owned _

/-- A turn of the origin offers it a numbered entry. -/
theorem generatePktDst_offered (owned : BlockPool.Owned p.mem p.pktList) (origin : me.u8_0 = origen) :
    Offered p (numberedEntry (u16 (p.seqNum + 1)) origen destino) (p.generatePktDst me) := by
  rw [PacketNode.generatePktDst, if_pos origin, origin]
  have offered := enqueue_offered (p := { p with seqNum := u16 (p.seqNum + 1) }) owned
    (numberedEntry (u16 (p.seqNum + 1)) origen destino)
  cases offered with
  | refused full list log => exact .refused full list log
  | queued room list obtained consumed sent => exact .queued room list obtained consumed sent

/-- A packet of the control plane offers it nothing. -/
theorem receive_control (p : PacketNode) (me source : LinkAddr) {raw payload : List UInt8}
    (received : recvUc raw = .control payload) : p.receive me source raw = p := by
  rw [PacketNode.receive, received]

theorem post_self (p : PacketNode) (posted : Bool) : p.post posted p = p := by
  cases posted <;> rfl

/-- The account does not depend on the pending events, so an entry may find none. -/
theorem Accounted.offered (accounted : Accounted me p) (pe : PktEntry) : Accounted me (p.enqueue pe) := by
  let awakened : PacketNode := { p with pending := p.pending + 1 }
  have awake : Awake awakened := fun _ => Nat.succ_pos _
  have same : p.enqueue pe = { awakened.enqueue pe with pending := (p.enqueue pe).pending } := by
    simp only [PacketNode.enqueue, awakened]
    cases BlockPool.alloc p.mem <;> rfl
  rw [same]
  exact ((accounted.unpost _).enqueue awake pe).1.unpost _

theorem Accounted.received (accounted : Accounted me p) (source : LinkAddr) (raw : List UInt8) :
    Accounted me (p.receive me source raw) := by
  rw [PacketNode.receive]
  cases recvUc raw with
  | nothing | control => exact accounted
  | data msg =>
      have counted : ∀ table, Accounted me { p with pktStatsTable := table } := fun _ =>
        ⟨accounted.owned, accounted.numbers, accounted.conserved, accounted.freed,
          accounted.justified, accounted.sent⟩
      dsimp only
      split
      next => exact (counted _).offered _
      next => exact accounted.offered _

theorem Accounted.generated (accounted : Accounted me p) : Accounted me (p.generatePktDst me) := by
  rw [PacketNode.generatePktDst]
  split
  next =>
    have counted : Accounted me { p with seqNum := u16 (p.seqNum + 1) } :=
      ⟨accounted.owned, accounted.numbers, accounted.conserved, accounted.freed,
        accounted.justified, accounted.sent⟩
    exact counted.offered _
  next => exact accounted

theorem Accounted.post {before after : PacketNode} (accounted : Accounted me after) (posted : Bool) :
    Accounted me (before.post posted after) := by
  cases posted with
  | true => exact accounted
  | false => exact accounted.unpost _

theorem Offered.post (offered : Offered p pe p') (posted : Bool) : Offered p pe (p.post posted p') := by
  cases posted with
  | true => exact offered
  | false =>
      cases offered with
      | refused full list log => exact .refused full list log
      | queued room list obtained consumed sent => exact .queued room list obtained consumed sent

/-- An entry that is refused leaves the flow as it is, and one that is queued is one token more. -/
theorem Offered.flow (offered : Offered p pe p') (me : LinkAddr) :
    (pktMem ≤ p.pktList.length ∧ fresh p.log.obtained p'.log.obtained = [] ∧
      nodeFlow me p' = nodeFlow me p) ∨
    (p.pktList.length < pktMem ∧ fresh p.log.obtained p'.log.obtained = [⟨p.log.obtained.length, pe⟩] ∧
      nodeFlow me p' = .ofQueued {(me, pe)} + nodeFlow me p) := by
  cases offered with
  | refused full list log =>
      refine .inl ⟨full, by rw [log, fresh_self], ?_⟩
      simp only [nodeFlow, list, log]
  | queued room list obtained consumed sent =>
      refine .inr ⟨room, ?_, ?_⟩
      · rw [obtained, ← List.singleton_append, fresh_append]
      · ext1 <;> simp [nodeFlow, Flow.ofQueued, Flow.empty, list, consumed]

theorem Offered.generated (offered : Offered p pe p') (new : Generated pe)
    (old : ∀ e ∈ p.view.pktList, Generated e) : ∀ e ∈ p'.view.pktList, Generated e := by
  cases offered with
  | refused _ list _ => rwa [list]
  | queued _ list _ _ _ =>
      rw [list]
      exact List.forall_mem_cons.mpr ⟨new, old⟩

end TreeRssi
